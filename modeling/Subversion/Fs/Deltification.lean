/-
This file shows that deltifying and undeltifying a representation changes no contents.
-/

import Mathlib.Logic.Relation
import Subversion.Fs.RepEffects

namespace Subversion.Fs

open Budget Framing Delta Svndiff

/-- A window of the first rep is a diff against the second. -/
def DeltaBase (store : Store) (key base : Nat) : Prop :=
  ∃ rep windows entry, store.reps key = some rep ∧ rep.kind = .delta windows ∧
    entry ∈ windows ∧ entry.base = base

/-- The two stores have the same rep under the key, and the same strings behind it. -/
structure AgreeAt (store next : Store) (key : Nat) : Prop where
  reps : next.reps key = store.reps key
  strings : ∀ rep, store.reps key = some rep → ∀ strKey ∈ rep.kind.strKeys,
    next.strings.records strKey = store.strings.records strKey

section Agreement

variable {store next : Store} {key : Nat}

theorem AgreeAt.refl (store : Store) (key : Nat) : AgreeAt store store key :=
  ⟨rfl, fun _ _ _ _ => rfl⟩

theorem AgreeAt.symm (agree : AgreeAt store next key) : AgreeAt next store key :=
  ⟨agree.reps.symm, fun rep found strKey member =>
    (agree.strings rep (agree.reps ▸ found) strKey member).symm⟩

theorem AgreeAt.deltaBase (agree : AgreeAt store next key) {base : Nat} :
    DeltaBase next key base ↔ DeltaBase store key base := by
  unfold DeltaBase
  rw [agree.reps]

theorem Replaces.agreeAt {rep : Option Rep} {changed : Nat}
    (replaces : Replaces store next changed rep) (distinct : key ≠ changed) :
    AgreeAt store next key :=
  ⟨replaces.other distinct, fun _ found strKey member =>
    replaces.kept key _ distinct found strKey member⟩

theorem AgreeAt.sizes (agree : AgreeAt store next key) :
    repContentsSize next key = repContentsSize store key := by
  cases found : store.reps key with
  | none => simp only [repContentsSize, readRep, agree.reps, found]
  | some rep =>
      cases kind : rep.kind with
      | fulltext strKey =>
          have kept := agree.strings rep found strKey (by
            rw [kind]
            exact List.mem_singleton_self _)
          simp only [repContentsSize, readRep, agree.reps, found, kind, stringSize, locateKey, kept]
      | delta windows => simp only [repContentsSize, readRep, agree.reps, found, kind]

/-- One level of reading depends on the rep, its strings, and the reads of its base. -/
theorem readLevel_below (invariant : RepsInvariant store) (agree : AgreeAt store next key)
    {reader other : Reader}
    (below : ∀ base, DeltaBase store key base → ∀ offset len,
      CutBelow (reader base offset len) (other base offset len)) (offset len : Nat) :
    CutBelow (readLevel store reader key offset len) (readLevel next other key offset len) := by
  cases found : store.reps key with
  | none =>
      simp only [readLevel, readRep, agree.reps, found]
      exact Below.refl _
  | some rep =>
      cases kind : rep.kind with
      | fulltext strKey =>
          have kept := agree.strings rep found strKey (by
            rw [kind]
            exact List.mem_singleton_self _)
          simp only [readLevel, readRep, agree.reps, found, kind, stringRead, locateKey, kept]
          exact Below.refl _
      | delta windows =>
          obtain ⟨-, entry, window, rfl, good⟩ := invariant.single key rep windows found kind
          have kept := agree.strings rep found entry.strKey (by
            rw [kind]
            exact List.mem_singleton_self _)
          simp only [readLevel, readRep, agree.reps, found, kind]
          rw [readDelta_single good, readDelta_single (good.of_kept kept)]
          exact singleRead_below (below entry.base
            ⟨rep, [entry], entry, found, kind, List.mem_singleton_self _, rfl⟩) offset len

/-- A deeper recursion returns nothing else. -/
theorem RepsInvariant.read_grows (invariant : RepsInvariant store) (depth : Nat) :
    ∀ key offset len, CutBelow (repReadRange store depth key offset len)
      (repReadRange store (depth + 1) key offset len) := by
  induction depth with
  | zero => exact fun key offset len => Or.inl rfl
  | succ depth ih =>
      intro key offset len
      exact readLevel_below invariant (AgreeAt.refl store key) (fun base _ => ih base) offset len

theorem RepsInvariant.read_mono (invariant : RepsInvariant store) {small large : Nat}
    (le : small ≤ large) (key offset len : Nat) :
    CutBelow (repReadRange store small key offset len)
      (repReadRange store large key offset len) :=
  below_of_le (fun depth => invariant.read_grows depth key offset len) le

theorem RepsInvariant.serves_mono (invariant : RepsInvariant store) {small large : Nat}
    (le : small ≤ large) {text : Bytes} (serves : Serves (repReadRange store small) key text) :
    Serves (repReadRange store large) key text := by
  intro offset len
  have below := invariant.read_mono le key offset len
  rw [serves] at below
  exact below.ok

/-- A rep whose chain of bases avoids the changed rep is read as before. -/
theorem RepsInvariant.read_frame (invariant : RepsInvariant store) (after : RepsInvariant next)
    {changed : Nat} (agree : ∀ key, key ≠ changed → AgreeAt store next key) (depth : Nat) :
    ∀ key, ¬ Relation.ReflTransGen (DeltaBase store) key changed → ∀ offset len,
      repReadRange next depth key offset len = repReadRange store depth key offset len := by
  induction depth with
  | zero => exact fun key _ offset len => rfl
  | succ depth ih =>
      intro key avoids offset len
      have distinct : key ≠ changed := by
        rintro rfl
        exact avoids Relation.ReflTransGen.refl
      have here := agree key distinct
      have bases : ∀ base, DeltaBase store key base → ∀ offset len,
          repReadRange next depth base offset len = repReadRange store depth base offset len :=
        fun base isBase => ih base fun reaches =>
          avoids (Relation.ReflTransGen.head isBase reaches)
      apply Below.antisymm
      · exact readLevel_below after here.symm (fun base isBase offset len =>
          Or.inr (bases base (here.deltaBase.mp isBase) offset len)) offset len
      · exact readLevel_below invariant here (fun base isBase offset len =>
          Or.inr (bases base isBase offset len).symm) offset len

/-- When both stores serve one text for the changed rep, the second reads what the first reads. -/
theorem RepsInvariant.read_transport (invariant : RepsInvariant store) (after : RepsInvariant next)
    {changed : Nat} (agree : ∀ key, key ≠ changed → AgreeAt store next key) {text : Bytes}
    {before later : Nat} (serves : Serves (repReadRange store before) changed text)
    (servesNext : Serves (repReadRange next later) changed text) (depth : Nat) :
    ∃ enough, ∀ key offset len, CutBelow (repReadRange store depth key offset len)
      (repReadRange next enough key offset len) := by
  induction depth with
  | zero => exact ⟨0, fun key offset len => Or.inl rfl⟩
  | succ depth ih =>
      obtain ⟨enough, below⟩ := ih
      refine ⟨max (enough + 1) later, fun key offset len => ?_⟩
      by_cases same : key = changed
      · subst same
        have final := invariant.read_mono (Nat.le_max_left (depth + 1) before) key offset len
        rw [invariant.serves_mono (Nat.le_max_right (depth + 1) before) serves offset len] at final
        rw [after.serves_mono (Nat.le_max_right (enough + 1) later) servesNext offset len]
        exact final
      · have level := readLevel_below invariant (agree key same) (fun base _ => below base) offset len
        exact level.trans (after.read_mono (Nat.le_max_left (enough + 1) later) key offset len)

end Agreement

/-- The size and the contents of every rep are the same in both stores. -/
def SameContents (store next : Store) : Prop :=
  ∀ key, repContentsSize next key = repContentsSize store key ∧
    ∀ result, Returns SvnError.stackExhausted (fun depth => repContents next depth key) result ↔
      Returns SvnError.stackExhausted (fun depth => repContents store depth key) result

section Contents

variable {store next : Store}

theorem repContents_below {key depth enough : Nat}
    (sizes : repContentsSize next key = repContentsSize store key)
    (below : ∀ offset len, CutBelow (repReadRange store depth key offset len)
      (repReadRange next enough key offset len)) :
    CutBelow (repContents store depth key) (repContents next enough key) := by
  unfold repContents
  rw [sizes]
  cases repContentsSize store key with
  | error error => exact Below.refl _
  | ok size =>
      dsimp only
      rcases below 0 size with out | same
      · rw [out]
        exact Or.inl rfl
      · rw [same]
        exact Below.refl _

/-- Contents are the same when the reads of each store are reads of the other. -/
theorem sameContents_of_reads (sizes : ∀ key, repContentsSize next key = repContentsSize store key)
    (forth : ∀ depth, ∃ enough, ∀ key offset len,
      CutBelow (repReadRange store depth key offset len) (repReadRange next enough key offset len))
    (back : ∀ depth, ∃ enough, ∀ key offset len,
      CutBelow (repReadRange next depth key offset len) (repReadRange store enough key offset len)) :
    SameContents store next := by
  intro key
  refine ⟨sizes key, fun result => ⟨fun returns => returns.mono fun depth => ?_,
    fun returns => returns.mono fun depth => ?_⟩⟩
  · obtain ⟨enough, below⟩ := back depth
    exact ⟨enough, repContents_below (sizes key).symm (below key)⟩
  · obtain ⟨enough, below⟩ := forth depth
    exact ⟨enough, repContents_below (sizes key) (below key)⟩

/-- Replacing a rep by one with the same text changes no contents. -/
theorem RepsInvariant.sameContents_replace (invariant : RepsInvariant store)
    (after : RepsInvariant next) {changed : Nat} {rep : Option Rep} {text : Bytes}
    {before later : Nat} (replaces : Replaces store next changed rep)
    (serves : Serves (repReadRange store before) changed text)
    (servesNext : Serves (repReadRange next later) changed text)
    (sized : repContentsSize store changed = .ok text.length)
    (sizedNext : repContentsSize next changed = .ok text.length) : SameContents store next := by
  have agree : ∀ key, key ≠ changed → AgreeAt store next key := fun key => replaces.agreeAt
  apply sameContents_of_reads
  · intro key
    by_cases same : key = changed
    · rw [same, sized, sizedNext]
    · exact (agree key same).sizes
  · exact invariant.read_transport after agree serves servesNext
  · exact after.read_transport invariant (fun key distinct => (agree key distinct).symm) servesNext
      serves

/-- Strings that only grow change no contents. -/
theorem RepsInvariant.sameContents_grow (invariant : RepsInvariant store)
    (after : RepsInvariant next) (reps : next.reps = store.reps)
    (grows : Grows store.strings next.strings) : SameContents store next := by
  have agree : ∀ key, AgreeAt store next key := fun key =>
    ⟨by rw [reps], fun rep found strKey member => invariant.grown_kept grows found member⟩
  apply sameContents_of_reads
  · exact fun key => (agree key).sizes
  · intro depth
    refine ⟨depth, ?_⟩
    induction depth with
    | zero => exact fun key offset len => Or.inl rfl
    | succ depth ih =>
        exact fun key => readLevel_below invariant (agree key) fun base _ => ih base
  · intro depth
    refine ⟨depth, ?_⟩
    induction depth with
    | zero => exact fun key offset len => Or.inl rfl
    | succ depth ih =>
        exact fun key => readLevel_below after (agree key).symm fun base _ => ih base

/-- The delta serves the text of the target when its base still serves the source text. -/
theorem Deltified.serves {depth target source : Nat} {sourceText targetText : Bytes}
    {entry : DeltaWindow} {window : TxdeltaWindow}
    (deltified : Deltified store next depth target source sourceText targetText entry window)
    (sourceServes : Serves (repReadRange next depth) source sourceText) :
    Serves (repReadRange next (depth + 1)) target targetText ∧
      repContentsSize next target = .ok targetText.length := by
  have short := deltified.good.short
  have length := applyInstructions_length deltified.applied
  simp only [streamChunkSize, deltified.size] at short
  obtain ⟨final, played, same⟩ := playAll_applyInstructions
    (show repReadRange next depth entry.base window.sviewOffset window.sviewLen = .ok _ by
      rw [deltified.base]
      exact sourceServes _ _) deltified.applied (by omega)
  subst same
  exact delta_serves deltified.replaces.this rfl deltified.good played deltified.size.symm

/-- In every reachable state, deltifying and undeltifying leave all contents and sizes alone. -/
theorem deltification_keeps_contents (store : Store) (reachable : RepsReachable store) :
    (∀ depth target source next, target ≠ source →
      ¬ Relation.ReflTransGen (DeltaBase store) source target →
      repDeltify store depth target source = .ok next → SameContents store next) ∧
    ∀ depth target next, repUndeltify store depth target = .ok next → SameContents store next := by
  have invariant := reachable.invariant
  constructor
  · intro depth target source next _ avoids ran
    have after := invariant.runRepOp (show runRepOp store depth (.deltify target source) = .ok next
      from ran)
    obtain ⟨-, ⟨reps, grows⟩ | ⟨sourceText, targetText, entry, window, deltified⟩⟩ :=
      invariant.repDeltify_effect ran
    · exact invariant.sameContents_grow after reps grows
    · have agree : ∀ key, key ≠ target → AgreeAt store next key :=
        fun key => deltified.replaces.agreeAt
      have sourceServes : Serves (repReadRange next depth) source sourceText := by
        intro offset len
        rw [invariant.read_frame after agree depth source avoids]
        exact deltified.sourceServes offset len
      obtain ⟨servesNext, sizedNext⟩ := deltified.serves sourceServes
      exact invariant.sameContents_replace after deltified.replaces deltified.targetServes
        servesNext deltified.sized sizedNext
  · intro depth target next ran
    have after := invariant.runRepOp (show runRepOp store depth (.undeltify target) = .ok next
      from ran)
    obtain ⟨-, same | ⟨text, strKey, serves, sized, stored, replaces⟩⟩ :=
      invariant.repUndeltify_effect ran
    · rw [same]
      exact fun key => ⟨rfl, fun result => Iff.rfl⟩
    · obtain ⟨servesNext, sizedNext⟩ := fulltext_serves replaces.this rfl stored depth
      exact invariant.sameContents_replace after replaces serves servesNext sized sizedNext

end Contents

def runRepOps (depth : Nat) (store : Store) (ops : List RepOp) : Except SvnError Store :=
  ops.foldlM (fun current op => runRepOp current depth op) store

theorem runRepOps_reachable {depth : Nat} (ops : List RepOp) {store next : Store}
    (reachable : RepsReachable store) (ran : runRepOps depth store ops = .ok next) :
    RepsReachable next := by
  refine GuardedRuns.foldlM_keeps RepsReachable ops ?_ reachable ran
  intro op _ current after reached step
  exact reached.step step

theorem runRepOps_allowed {depth : Nat} {allowed : Store → RepOp → Prop} (ops : List RepOp)
    {store next : Store} (meet : ∀ op ∈ ops, ∀ current, allowed current op)
    (ran : runRepOps depth store ops = .ok next) :
    Relation.ReflTransGen (AllowedStep allowed) store next := by
  refine GuardedRuns.foldlM_keeps (Relation.ReflTransGen (AllowedStep allowed) store) ops ?_ .refl ran
  intro op member current after steps step
  exact steps.tail ⟨depth, op, meet op member current, step⟩

theorem eq_ok_getD {E A : Type} {result : Except E A} (default : A)
    (succeeded : result.toOption.isSome = true) : result = .ok (result.toOption.getD default) := by
  cases result with
  | error error => cases succeeded
  | ok value => rfl

theorem exists_ok {E A : Type} {result : Except E A} (succeeded : result.toOption.isSome = true) :
    ∃ value, result = .ok value := by
  cases result with
  | error error => cases succeeded
  | ok value => exact ⟨value, rfl⟩

/-- Two texts of thirty bytes, and a third one behind the first. -/
def deltifiedStore : Store :=
  (runRepOps 3 emptyStore [.getMutable none, .write 0 (List.replicate 30 7), .getMutable none,
    .write 1 (List.replicate 30 7 ++ [8]), .makeImmutable 0, .makeImmutable 1, .getMutable none,
    .write 2 (List.replicate 29 7), .makeImmutable 2, .deltify 2 1]).toOption.getD emptyStore

/-- The base of one delta becomes a delta itself, and every text survives. -/
theorem deltification_keeps_contents_chain :
    let next := (repDeltify deltifiedStore 3 1 0).toOption.getD emptyStore
    next.reps 1 = some ⟨false, .delta [⟨0, 31, some 4, 0⟩]⟩ ∧
      repContents next 3 2 = .ok (List.replicate 29 7) ∧ SameContents deltifiedStore next := by
  have reachable : RepsReachable deltifiedStore :=
    runRepOps_reachable _ RepsReachable.empty (eq_ok_getD emptyStore (by decide +kernel))
  have fulltext : deltifiedStore.reps 0 = some ⟨false, .fulltext (some 0)⟩ := by decide +kernel
  have avoids : ¬ Relation.ReflTransGen (DeltaBase deltifiedStore) 0 1 := by
    intro reaches
    rcases Relation.ReflTransGen.cases_head reaches with same | ⟨base, isBase, -⟩
    · cases same
    · obtain ⟨rep, windows, entry, found, kind, -⟩ := isBase
      rw [fulltext] at found
      cases found
      cases kind
  refine ⟨by decide +kernel, by decide +kernel, ?_⟩
  exact (deltification_keeps_contents deltifiedStore reachable).1 3 1 0 _ (by decide) avoids
    (eq_ok_getD emptyStore (by decide +kernel))

end Subversion.Fs
