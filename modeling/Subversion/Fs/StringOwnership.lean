/-
This file shows which strings the operations on representations create and delete.
-/

import Subversion.Fs.Deltification

namespace Subversion.Fs

open Framing Delta Svndiff

/-- All bytes went to one new string. Without a key, nothing was written. -/
structure OneString (before : StringsTable) (key : Option StrKey) (after : StringsTable) :
    Prop where
  untouched : key = none → after = before
  only : ∀ found, key = some found → found = some before.nextKey ∧
    after.records found ≠ none ∧ ∀ other, other ≠ found → after.records other = before.records other

theorem OneString.start (table : StringsTable) : OneString table none table :=
  ⟨fun _ => rfl, by simp⟩

theorem OneString.append {before after : StringsTable} {key : Option StrKey}
    (one : OneString before key after) (bytes : Bytes) :
    OneString before (some (stringAppend after key bytes).1) (stringAppend after key bytes).2 := by
  constructor
  · simp
  · rintro found ⟨⟩
    cases key with
    | none =>
        rw [one.untouched rfl]
        refine ⟨rfl, by simp [stringAppend, getKeyAndBump], ?_⟩
        intro other distinct
        exact Function.update_of_ne distinct _ _
    | some key =>
        obtain ⟨isNext, -, others⟩ := one.only key rfl
        refine ⟨isNext, by simp [stringAppend], ?_⟩
        intro other distinct
        rw [← others other distinct]
        exact Function.update_of_ne distinct _ _

section Creating

variable {store : Store} {depth rep : Nat} {before : StringsTable}

theorem copyFulltext_one (size fuel : Nat) :
    ∀ {offset : Nat} {newStr : Option StrKey} {strings : StringsTable}
      {result : Option StrKey × StringsTable}, OneString before newStr strings →
      copyFulltext store depth rep size fuel offset newStr strings = .ok result →
      OneString before result.1 result.2 := by
  induction fuel with
  | zero =>
      intro offset newStr strings result one copied
      cases copied
  | succ fuel ih =>
      intro offset newStr strings result one copied
      rw [copyFulltext] at copied
      split at copied
      · split at copied
        · cases copied
        · next bytes read => exact ih (one.append bytes) copied
      · cases copied
        exact one

theorem writeFulltext_one (fuel : Nat) :
    ∀ {offset : Nat} {key : Option StrKey} {strings : StringsTable}
      {result : Option StrKey × StringsTable}, OneString before key strings →
      writeFulltext store depth rep fuel offset key strings = .ok result →
      OneString before result.1 result.2 := by
  induction fuel with
  | zero =>
      intro offset key strings result one wrote
      cases wrote
  | succ fuel ih =>
      intro offset key strings result one wrote
      rw [writeFulltext] at wrote
      split at wrote
      · cases wrote
      · next bytes read =>
          dsimp only at wrote
          split at wrote
          · cases wrote
            exact one.append bytes
          · exact ih (one.append bytes) wrote

theorem writeSvndiffString_one {baton next : WriteSvndiffBaton} {write : Bytes}
    (one : OneString before baton.key baton.strings)
    (wrote : writeSvndiffStrings baton write = .ok next) : OneString before next.key next.strings := by
  simp only [writeSvndiffStrings] at wrote
  generalize (if baton.headerRead < 4 then 4 - baton.headerRead else 0) = nheader at wrote
  split at wrote
  · cases wrote
  · cases wrote
    exact one.append _

theorem writeSvndiffStrings_one (writes : List Bytes) {baton last : WriteSvndiffBaton}
    (one : OneString before baton.key baton.strings)
    (folded : writes.foldlM writeSvndiffStrings baton = .ok last) :
    OneString before last.key last.strings :=
  GuardedRuns.foldlM_keeps (fun baton => OneString before baton.key baton.strings) writes
    (fun _ _ _ _ one wrote => writeSvndiffString_one one wrote) one folded

/-- A window goes to one new string. The end mark writes nothing once the header is written. -/
theorem deltifyWindow_one {state next : DeltifyState} {result : Option TxdeltaWindow}
    (ran : deltifyWindow state = .ok (result, next)) :
    next.headerDone = true ∧
      match result with
      | none => next.windows = state.windows ∧
          (state.headerDone = true → next.strings = state.strings)
      | some _ => ∃ key written, OneString state.strings key next.strings ∧
          next.windows = state.windows ++ [written] ∧ written.key = key.getD none := by
  unfold deltifyWindow at ran
  split at ran
  · cases ran
  · next window stream produced =>
      split at ran
      · cases ran
      · next writes written =>
          split at ran
          · cases ran
          · next baton folded =>
              have one := writeSvndiffStrings_one writes (OneString.start state.strings) folded
              cases window with
              | none =>
                  cases ran
                  refine ⟨rfl, rfl, fun done => ?_⟩
                  rw [svndiffWrites, done] at written
                  cases written
                  cases folded
                  rfl
              | some window =>
                  cases ran
                  exact ⟨rfl, baton.key, _, one, rfl, rfl⟩

theorem deltifyWindows_grows (fuel : Nat) :
    ∀ {state last : DeltifyState}, deltifyWindows fuel state = .ok last →
      ∃ more, last.windows = state.windows ++ more := by
  induction fuel with
  | zero =>
      intro state last ran
      cases ran
  | succ fuel ih =>
      intro state last ran
      rw [deltifyWindows] at ran
      cases first : deltifyWindow state with
      | error error => rw [first] at ran; cases ran
      | ok result =>
          obtain ⟨window, next⟩ := result
          obtain ⟨-, effect⟩ := deltifyWindow_one first
          rw [first] at ran
          cases window with
          | none =>
              cases ran
              exact ⟨[], by rw [effect.1, List.append_nil]⟩
          | some window =>
              obtain ⟨key, written, -, windows, -⟩ := effect
              obtain ⟨more, grown⟩ := ih ran
              exact ⟨written :: more, by rw [grown, windows, List.append_assoc]; rfl⟩

/-- The delta of a short text leaves its one string and no other. -/
theorem deltifyWindows_one {fuel : Nat} {state last : DeltifyState} {written : WindowWrite}
    (ran : deltifyWindows fuel state = .ok last) (start : state.windows = [])
    (single : last.windows = [written]) (named : written.key ≠ none) :
    OneString state.strings (some written.key) last.strings := by
  cases fuel with
  | zero => cases ran
  | succ fuel =>
      rw [deltifyWindows] at ran
      cases first : deltifyWindow state with
      | error error => rw [first] at ran; cases ran
      | ok result =>
          obtain ⟨window, next⟩ := result
          obtain ⟨header, effect⟩ := deltifyWindow_one first
          rw [first] at ran
          cases window with
          | none =>
              cases ran
              rw [effect.1, start] at single
              cases single
          | some window =>
              obtain ⟨key, made, one, windows, isKey⟩ := effect
              rw [start, List.nil_append] at windows
              cases fuel with
              | zero => cases ran
              | succ fuel =>
                  dsimp only at ran
                  rw [deltifyWindows] at ran
                  cases second : deltifyWindow next with
                  | error error => rw [second] at ran; cases ran
                  | ok result =>
                      obtain ⟨final, after⟩ := result
                      obtain ⟨-, ending⟩ := deltifyWindow_one second
                      rw [second] at ran
                      cases final with
                      | none =>
                          cases ran
                          rw [ending.1, windows] at single
                          cases single
                          rw [ending.2 header]
                          cases key with
                          | none => exact absurd isKey named
                          | some key =>
                              rw [isKey]
                              exact one
                      | some final =>
                          -- a second window would stay in the list
                          obtain ⟨-, extra, -, more, -⟩ := ending
                          obtain ⟨rest, grown⟩ := deltifyWindows_grows _ ran
                          rw [grown, more, windows] at single
                          simp at single

end Creating

/-- The strings in the table are those that the reps refer to. -/
def Accounted (store : Store) : Prop :=
  ∀ strKey, store.strings.records strKey ≠ none ↔
    ∃ key rep, store.reps key = some rep ∧ strKey ∈ rep.kind.strKeys

/-- The strings of the old rep under the key make way for those of the new one. -/
def Exchanges (store next : Store) (key : Nat) (rep : Option Rep) : Prop :=
  ∀ strKey, next.strings.records strKey ≠ none ↔
    (∃ new, rep = some new ∧ strKey ∈ new.kind.strKeys) ∨
    (store.strings.records strKey ≠ none ∧
      ∀ old, store.reps key = some old → strKey ∉ old.kind.strKeys)

section Accounts

variable {store next : Store} {depth key : Nat} {rep : Option Rep}

theorem Accounted.exchange (accounted : Accounted store) (invariant : RepsInvariant store)
    (reps : next.reps = Function.update store.reps key rep)
    (exchanges : Exchanges store next key rep) : Accounted next := by
  intro strKey
  rw [exchanges strKey]
  constructor
  · rintro (⟨new, rfl, member⟩ | ⟨present, notOld⟩)
    · exact ⟨key, new, by rw [reps, Function.update_self], member⟩
    · obtain ⟨owner, found, stored, member⟩ := (accounted strKey).mp present
      have distinct : owner ≠ key := by
        rintro rfl
        exact notOld found stored member
      exact ⟨owner, found, by rw [reps, Function.update_of_ne distinct, stored], member⟩
  · rintro ⟨owner, found, stored, member⟩
    by_cases same : owner = key
    · subst same
      rw [reps, Function.update_self] at stored
      exact Or.inl ⟨found, stored, member⟩
    · rw [reps, Function.update_of_ne same] at stored
      exact Or.inr ⟨(accounted strKey).mpr ⟨owner, found, stored, member⟩, fun old oldStored =>
        invariant.unshared owner key found old stored oldStored same strKey member⟩

/-- A new string replaces the strings of the old rep. -/
theorem RepsInvariant.exchanges_fresh (invariant : RepsInvariant store) {strKey : StrKey}
    {strings : StringsTable} {new : Rep} (one : OneString store.strings (some strKey) strings)
    (keys : new.kind.strKeys = [strKey])
    (records : ∀ other, next.strings.records other =
      if ∃ old, store.reps key = some old ∧ other ∈ old.kind.strKeys then none
      else strings.records other) : Exchanges store next key (some new) := by
  obtain ⟨isNext, written, others⟩ := one.only strKey rfl
  have absent : store.strings.records strKey = none := by
    rw [isNext]
    exact invariant.freshStrings _ le_rfl
  have notOld : ∀ old, store.reps key = some old → strKey ∉ old.kind.strKeys := by
    intro old stored member
    obtain ⟨n, small, same⟩ := invariant.known key old stored strKey member
    rw [isNext] at same
    have := Option.some.inj same
    omega
  intro other
  rw [records]
  by_cases same : other = strKey
  · subst same
    rw [if_neg (by
      rintro ⟨old, stored, member⟩
      exact notOld old stored member)]
    simp [written, keys]
  · rw [others other same]
    split
    · next old =>
        obtain ⟨old, stored, member⟩ := old
        simp only [ne_eq, not_true_eq_false, Option.some.injEq, exists_eq_left', keys,
          List.mem_singleton, same, false_or, false_iff, not_and]
        exact fun _ all => all old stored member
    · next notMine =>
        push Not at notMine
        simp only [Option.some.injEq, exists_eq_left', keys, List.mem_singleton, same, false_or]
        exact ⟨fun present => ⟨present, notMine⟩, And.left⟩

theorem RepsInvariant.getMutableRep_accounted (invariant : RepsInvariant store)
    (accounted : Accounted store) {old : Option Nat}
    (got : getMutableRep store depth old = .ok (key, next)) : Accounted next := by
  have unused : ∀ found, store.reps store.nextRep ≠ some found := by
    intro found stored
    rw [invariant.freshReps _ le_rfl] at stored
    cases stored
  have new : ∀ {strKey : StrKey} {strings : StringsTable},
      OneString store.strings (some strKey) strings →
      Accounted (writeNewRep { store with strings := strings } (fulltextRep true strKey)).2 := by
    intro strKey strings one
    apply accounted.exchange invariant rfl
    apply invariant.exchanges_fresh one rfl
    intro other
    rw [if_neg (by simp [unused])]
    rfl
  unfold getMutableRep at got
  split at got
  · cases got
    exact new ((OneString.start store.strings).append [])
  · next old =>
      split at got
      · cases got
      · next skel read =>
          split at got
          · cases got
            exact accounted
          · split at got
            · next oldStr kind =>
                split at got
                · cases got
                · next newStr strings copied =>
                    cases got
                    apply new
                    unfold stringCopy at copied
                    simp only [getKeyAndBump] at copied
                    split at copied
                    · cases copied
                      refine ⟨by simp, ?_⟩
                      rintro found ⟨⟩
                      exact ⟨rfl, by simp, fun other distinct => Function.update_of_ne distinct _ _⟩
                    · cases copied
            · next windows kind =>
                obtain ⟨-, entry, window, rfl, good⟩ :=
                  invariant.single old skel windows (readRep_ok read) kind
                split at got
                · cases got
                · next size sized =>
                    rw [repContentsSize_delta (readRep_ok read) kind good] at sized
                    cases sized
                    split at got
                    · cases got
                    · next newStr strings copied =>
                        cases got
                        have one := copyFulltext_one _ _ (OneString.start store.strings) copied
                        obtain ⟨-, -, made, -⟩ := copyFulltext_appended _ _
                          (Appended.start_of_fresh invariant.freshStrings) copied
                        obtain ⟨strKey, rfl⟩ := Option.ne_none_iff_exists'.mp
                          (made (Or.inr good.positive))
                        exact new one

theorem RepsInvariant.deleteRepIfMutable_accounted (invariant : RepsInvariant store)
    (accounted : Accounted store) (deleted : deleteRepIfMutable store key = .ok next) :
    Accounted next := by
  unfold deleteRepIfMutable at deleted
  split at deleted
  · cases deleted
  · next skel read =>
      have found := readRep_ok read
      split at deleted
      · split at deleted
        · cases deleted
        · next strings removed =>
            obtain ⟨-, records⟩ := deleteStrings_eq _ removed
            unfold deleteRep at deleted
            dsimp only at deleted
            rw [found] at deleted
            cases deleted
            apply accounted.exchange invariant rfl
            intro strKey
            simp only [records, found, reduceCtorEq, false_and, exists_false, false_or,
              Option.some.injEq, forall_eq']
            split <;> simp [*]
      · cases deleted
        exact accounted

theorem RepsInvariant.makeRepImmutable_accounted (invariant : RepsInvariant store)
    (accounted : Accounted store) (made : makeRepImmutable store key = .ok next) :
    Accounted next := by
  obtain ⟨old, found, strings, -, replaces⟩ := invariant.makeRepImmutable_replaces made
  apply accounted.exchange invariant replaces.reps
  intro strKey
  rw [strings]
  simp only [Option.some.injEq, exists_eq_left', found, forall_eq']
  have present : strKey ∈ old.kind.strKeys → store.strings.records strKey ≠ none :=
    fun member => (accounted strKey).mpr ⟨key, old, found, member⟩
  tauto

/-- The string of a fulltext is written again, and no other string is touched. -/
theorem Accounted.rewrite (accounted : Accounted store) (invariant : RepsInvariant store)
    {found : Rep} {strKey : StrKey} (stored : store.reps key = some found)
    (kind : found.kind = .fulltext strKey) {written : List Bytes}
    (reps : next.reps = store.reps)
    (records : next.strings.records = Function.update store.strings.records strKey (some written)) :
    Accounted next := by
  apply accounted.exchange invariant
    (show next.reps = Function.update store.reps key (some found) by
      rw [reps, ← stored, Function.update_eq_self])
  intro other
  simp only [records, stored, Option.some.injEq, exists_eq_left', forall_eq', kind,
    RepKind.strKeys, List.mem_singleton]
  by_cases same : other = strKey
  · simp [same]
  · rw [Function.update_of_ne same]
    simp [same]

theorem RepsInvariant.repWrite_accounted (invariant : RepsInvariant store)
    (accounted : Accounted store) {bytes : Bytes} (wrote : repWrite store key bytes = .ok next) :
    Accounted next := by
  unfold repWrite at wrote
  split at wrote
  · cases wrote
  · next skel read =>
      split at wrote
      · next strKey kind =>
          cases wrote
          exact accounted.rewrite invariant (readRep_ok read) kind rfl rfl
      · cases wrote

theorem RepsInvariant.repContentsClear_accounted (invariant : RepsInvariant store)
    (accounted : Accounted store) (cleared : repContentsClear store key = .ok next) :
    Accounted next := by
  unfold repContentsClear at cleared
  split at cleared
  · cases cleared
  · next skel read =>
      have found := readRep_ok read
      split at cleared
      · next isMutable =>
          split at cleared
          · cases cleared
            exact accounted
          · next strKey kind =>
              split at cleared
              · cases cleared
              · next strings emptied =>
                  cases cleared
                  unfold stringClear at emptied
                  split at emptied
                  · cases emptied
                    exact accounted.rewrite invariant found kind rfl rfl
                  · cases emptied
          · next windows kind =>
              have immutable := (invariant.single key skel windows found kind).1
              rw [immutable] at isMutable
              cases isMutable
      · cases cleared

/-- Deltifying a rep that is not empty leaves no string behind. -/
theorem RepsInvariant.repDeltify_accounted (invariant : RepsInvariant store)
    (accounted : Accounted store) {target source : Nat}
    (nonempty : repContentsSize store target ≠ .ok 0)
    (ran : repDeltify store depth target source = .ok next) : Accounted next := by
  unfold repDeltify at ran
  split at ran
  · cases ran
  · split at ran
    · cases ran
    · next size sized =>
        split at ran
        · cases ran
          exact accounted
        · next short =>
            split at ran
            · next sourceText targetText sourcePulled targetPulled =>
                obtain ⟨-, targetSized⟩ := invariant.stream_serves targetPulled
                rw [sized] at targetSized
                cases targetSized
                have some : targetText ≠ [] := by
                  rintro rfl
                  exact nonempty sized
                split at ran
                · cases ran
                · next written deltified =>
                    split at ran
                    · cases ran
                    · obtain ⟨expected, window, strKey, svndiffLen, data, produced, windows,
                        appended, -⟩ :=
                        deltifyWindows_single invariant.freshStrings sourceText some (by omega)
                      rw [produced] at deltified
                      cases deltified
                      obtain ⟨n, isKey, -⟩ := appended.string strKey rfl
                      have one : OneString store.strings (.some strKey) written.strings :=
                        deltifyWindows_one produced rfl windows (by simp [isKey])
                      obtain ⟨isNext, made, others⟩ := one.only strKey rfl
                      unfold hookDelta at ran
                      split at ran
                      · cases ran
                      · next old read =>
                          have found := readRep_ok read
                          split at ran
                          · cases ran
                          · split at ran
                            · -- the new string is deleted again
                              split at ran
                              · cases ran
                              · next strings deleted =>
                                  cases ran
                                  obtain ⟨-, records⟩ := deleteStrings_eq _ deleted
                                  have same : strings.records = store.strings.records := by
                                    funext other
                                    rw [records, windows]
                                    simp only [List.map_cons, List.map_nil, List.mem_singleton]
                                    split
                                    · next isNew =>
                                        rw [isNew, isNext, invariant.freshStrings _ le_rfl]
                                    · next distinct => exact others other distinct
                                  intro other
                                  rw [← accounted other, ← same]
                            · split at ran
                              · cases ran
                              · next strings deleted =>
                                  cases ran
                                  obtain ⟨-, records⟩ := deleteStrings_eq _ deleted
                                  apply accounted.exchange invariant rfl
                                  apply invariant.exchanges_fresh one (by rw [windows]; rfl)
                                  intro other
                                  rw [writeRep, records]
                                  simp [found]
            · cases ran
            · cases ran

theorem RepsInvariant.repUndeltify_accounted (invariant : RepsInvariant store)
    (accounted : Accounted store) (ran : repUndeltify store depth key = .ok next) :
    Accounted next := by
  unfold repUndeltify at ran
  split at ran
  · cases ran
  · next skel read =>
      have found := readRep_ok read
      split at ran
      · cases ran
        exact accounted
      · next windows kind =>
          split at ran
          · cases ran
          · next newStr strings wrote =>
              have one := writeFulltext_one _ (OneString.start store.strings) wrote
              obtain ⟨-, -, present, -⟩ := writeFulltext_appended _
                (Appended.start_of_fresh invariant.freshStrings) wrote
              obtain ⟨strKey, rfl⟩ := Option.ne_none_iff_exists'.mp present
              split at ran
              · cases ran
              · next left deleted =>
                  cases ran
                  obtain ⟨-, records⟩ := deleteStrings_eq _ deleted
                  apply accounted.exchange invariant rfl
                  apply invariant.exchanges_fresh one rfl
                  intro other
                  rw [writeRep, records]
                  simp [found, kind]

/-- The step is not a deltification of an empty rep. -/
def NotEmptyTarget (store : Store) : RepOp → Prop
  | .deltify target _ => repContentsSize store target ≠ .ok 0
  | _ => True

theorem RepsInvariant.runRepOp_accounted (invariant : RepsInvariant store)
    (accounted : Accounted store) {op : RepOp} (nonempty : NotEmptyTarget store op)
    (ran : Fs.runRepOp store depth op = .ok next) : Accounted next := by
  cases op with
  | getMutable rep =>
      simp only [Fs.runRepOp] at ran
      cases got : getMutableRep store depth rep with
      | error error => rw [got] at ran; cases ran
      | ok result =>
          rw [got] at ran
          cases ran
          exact invariant.getMutableRep_accounted accounted got
  | makeImmutable rep => exact invariant.makeRepImmutable_accounted accounted ran
  | deleteIfMutable rep => exact invariant.deleteRepIfMutable_accounted accounted ran
  | write rep bytes => exact invariant.repWrite_accounted accounted ran
  | clear rep => exact invariant.repContentsClear_accounted accounted ran
  | deltify target source => exact invariant.repDeltify_accounted accounted nonempty ran
  | undeltify rep => exact invariant.repUndeltify_accounted accounted ran

/-- A rep names no string twice. -/
theorem RepsInvariant.count_strKeys (invariant : RepsInvariant store) {found : Rep}
    (stored : store.reps key = some found) {strKey : StrKey}
    (member : strKey ∈ found.kind.strKeys) : found.kind.strKeys.count strKey = 1 := by
  cases kind : found.kind with
  | fulltext owned =>
      rw [kind, RepKind.strKeys, List.mem_singleton] at member
      simp [RepKind.strKeys, member]
  | delta windows =>
      obtain ⟨-, entry, window, rfl, -⟩ := invariant.single key found windows stored kind
      rw [kind] at member
      simp only [RepKind.strKeys, List.map_cons, List.map_nil, List.mem_singleton] at member ⊢
      simp [member]

end Accounts

/-- A string is referenced by exactly one rep, at exactly one place in it. -/
def OwnedOnce (store : Store) (strKey : StrKey) : Prop :=
  ∃ key rep, store.reps key = some rep ∧ rep.kind.strKeys.count strKey = 1 ∧
    ∀ other found, store.reps other = some found → strKey ∈ found.kind.strKeys → other = key

/-- No string is leaked or shared, and no rep refers to a missing string. -/
def OneOwnerEach (store : Store) : Prop :=
  (∀ strKey, store.strings.records strKey ≠ none → OwnedOnce store strKey) ∧
    ∀ key rep, store.reps key = some rep → ∀ strKey ∈ rep.kind.strKeys,
      store.strings.records strKey ≠ none ∧ rep.kind.strKeys.count strKey = 1

theorem Accounted.oneOwnerEach {store : Store} (accounted : Accounted store)
    (invariant : RepsInvariant store) : OneOwnerEach store := by
  constructor
  · intro strKey present
    obtain ⟨key, rep, stored, member⟩ := (accounted strKey).mp present
    refine ⟨key, rep, stored, invariant.count_strKeys stored member, ?_⟩
    intro other found otherStored shared
    by_contra distinct
    exact invariant.unshared other key found rep otherStored stored distinct strKey shared member
  · intro key rep stored strKey member
    exact ⟨(accounted strKey).mpr ⟨key, rep, stored, member⟩,
      invariant.count_strKeys stored member⟩

/-- In every run that deltifies no empty rep, each string has one owner and no string is missing. -/
theorem every_string_has_one_owner (store : Store)
    (run : Relation.ReflTransGen (AllowedStep NotEmptyTarget) emptyStore store) :
    OneOwnerEach store := by
  have accounted : Accounted store := by
    induction run with
    | refl =>
        intro strKey
        simp [emptyStore, emptyStrings]
    | tail earlier step ih =>
        obtain ⟨depth, op, nonempty, ran⟩ := step
        exact (RepsReachable.empty.run earlier).invariant.runRepOp_accounted ih nonempty ran
  exact accounted.oneOwnerEach (RepsReachable.empty.run run).invariant

/-- A rep is written, made immutable, copied, and made a delta against its copy. -/
theorem every_string_has_one_owner_deltified :
    let ops : List RepOp := [.getMutable none, .write 0 (List.replicate 30 7), .makeImmutable 0,
      .getMutable (some 0), .write 1 [8], .makeImmutable 1]
    let before := (runRepOps 3 emptyStore ops).toOption.getD emptyStore
    let store := (repDeltify before 3 0 1).toOption.getD emptyStore
    store.reps 0 = some ⟨false, .delta [⟨0, 30, some 2, 1⟩]⟩ ∧ OneOwnerEach store := by
  intro ops before store
  have allowed : ∀ op ∈ ops, ∀ store, NotEmptyTarget store op := by simp [ops, NotEmptyTarget]
  have run := runRepOps_allowed ops allowed (eq_ok_getD emptyStore
    (show (runRepOps 3 emptyStore ops).toOption.isSome = true by decide))
  have nonempty : repContentsSize before 0 ≠ .ok 0 := by decide
  have step : AllowedStep NotEmptyTarget before store :=
    ⟨3, .deltify 0 1, nonempty, eq_ok_getD emptyStore (by decide)⟩
  exact ⟨by decide, every_string_has_one_owner store (run.tail step)⟩

/-- Deltifying an empty rep leaves a string that no rep refers to. -/
theorem empty_deltification_leaks_a_string :
    ¬ ∀ store, RepsReachable store → OneOwnerEach store := by
  intro all
  let ops : List RepOp := [.getMutable none, .getMutable none, .makeImmutable 0, .makeImmutable 1,
    .deltify 0 1]
  let store := (runRepOps 1 emptyStore ops).toOption.getD emptyStore
  have reachable : RepsReachable store :=
    runRepOps_reachable ops RepsReachable.empty (eq_ok_getD emptyStore (by decide))
  have present : store.strings.records (some 2) ≠ none := by decide
  obtain ⟨key, rep, stored, once, -⟩ := (all store reachable).1 (some 2) present
  have inRange := reachable.invariant.in_range stored
  have two : store.nextRep = 2 := by decide
  have first : store.reps 0 = some ⟨false, .fulltext (some 0)⟩ := by decide
  have second : store.reps 1 = some ⟨false, .fulltext (some 1)⟩ := by decide
  rw [two] at inRange
  interval_cases key
  · rw [first] at stored
    cases stored
    revert once
    decide
  · rw [second] at stored
    cases stored
    revert once
    decide

end Subversion.Fs
