/-
This file shows which representations `svn_fs__get_mutable_rep` copies faithfully.
-/

import Subversion.Fs.RepReading
import Subversion.Fs.RepOps

namespace Subversion.Fs

open Delta Svndiff

/-- Keys come from the counters, no string has two reps, and a mutable rep is a fulltext. -/
structure StoreWellFormed (store : Store) : Prop where
  freshStrings : ∀ n, store.strings.nextKey ≤ n → store.strings.records (some n) = none
  unnamed : store.strings.records none = none
  freshReps : ∀ key, store.nextRep ≤ key → store.reps key = none
  known : ∀ key rep, store.reps key = some rep → ∀ n, some n ∈ rep.kind.strKeys →
    n < store.strings.nextKey
  unshared : ∀ first second one two, store.reps first = some one → store.reps second = some two →
    first ≠ second → ∀ strKey ∈ one.kind.strKeys, strKey ∉ two.kind.strKeys
  mutable : ∀ key rep, store.reps key = some rep → rep.mutable = true →
    ∃ strKey, rep.kind = .fulltext strKey

/-- The text of the given rep. The empty key stands for an empty text. -/
def HasText (store : Store) (depth : Nat) (text : Bytes) : Option Nat → Prop
  | none => text = []
  | some key => repText store depth key = some text ∧ Readable store depth key

/-- The key names a mutable fulltext of its own with the text, and nothing else has changed. -/
structure MutableCopy (store : Store) (rep : Option Nat) (text : Bytes) (key : Nat)
    (next : Store) : Prop where
  fulltext : ∃ strKey, next.reps key = some (fulltextRep true strKey) ∧
    (∀ other found, other ≠ key → next.reps other = some found → strKey ∉ found.kind.strKeys) ∧
    ∀ other, other ≠ strKey → next.strings.records other = store.strings.records other
  contents : repContents next 1 key = .ok text
  others : ∀ other, other ≠ key → next.reps other = store.reps other
  given : ∀ old, rep = some old → next.reps old = store.reps old
  kept : ∀ old found, rep = some old → store.reps old = some found → found.mutable = true →
    key = old ∧ next = store

def IsImmutableDelta (store : Store) (rep : Option Nat) : Prop :=
  ∃ key windows, rep = some key ∧ store.reps key = some ⟨false, .delta windows⟩

/-- The bytes written so far are one new string. Without a key, nothing was written. -/
def Written (before : StringsTable) (bytes : Bytes) (after : StringsTable) : Option StrKey → Prop
  | none => bytes = [] ∧ after = before
  | some key => key = some before.nextKey ∧ ∃ records, records.flatten = bytes ∧
      after = ⟨Function.update before.records (some before.nextKey) (some records),
        before.nextKey + 1⟩

theorem written_append {before after : StringsTable} {bytes : Bytes} {key : Option StrKey}
    (fresh : before.records (some before.nextKey) = none) (written : Written before bytes after key)
    (more : Bytes) :
    Written before (bytes ++ more) (stringAppend after key more).2
      (some (stringAppend after key more).1) := by
  cases key with
  | none =>
      obtain ⟨rfl, rfl⟩ := written
      refine ⟨rfl, [more], by simp, ?_⟩
      simp [stringAppend, getKeyAndBump, fresh]
  | some key =>
      obtain ⟨rfl, records, rfl, rfl⟩ := written
      refine ⟨rfl, records ++ [more], by simp, ?_⟩
      simp [stringAppend]

/-- The undeltifying loop copies the whole text, and without any text it writes nothing. -/
theorem copyFulltext_written {store : Store} {depth rep : Nat} {before : StringsTable} {text : Bytes}
    (reads : ReadsAs (repReadRange store depth) rep text)
    (fresh : before.records (some before.nextKey) = none) (fuel : Nat) :
    ∀ {bytes : Bytes} {newStr : Option StrKey} {strings : StringsTable},
      Written before bytes strings newStr → bytes = text.take bytes.length →
      text.length - bytes.length < fuel →
      ∃ key after, copyFulltext store depth rep text.length fuel bytes.length newStr strings =
          .ok (key, after) ∧ Written before text after key ∧
        (key = none ↔ newStr = none ∧ text.length ≤ bytes.length) := by
  induction fuel with
  | zero =>
      intro bytes newStr strings _ _ enough
      omega
  | succ fuel ih =>
      intro bytes newStr strings written taken enough
      rw [copyFulltext]
      split
      · next more =>
          have small := reads.1
          rw [reads.2 _ _ (by omega) (by omega)]
          dsimp only
          generalize piece : (text.drop bytes.length).take (min (text.length - bytes.length) 10000) =
            chunk
          have chunkLength : chunk.length = min (text.length - bytes.length) 10000 := by
            rw [← piece, List.length_take, List.length_drop]
            omega
          have longer := written_append fresh written chunk
          have whole : bytes ++ chunk = text.take (bytes ++ chunk).length := by
            rw [List.length_append, chunkLength, List.take_add, ← taken, piece]
          rw [← List.length_append]
          obtain ⟨key, after, copied, writtenAll, empty⟩ := ih longer whole (by
            rw [List.length_append]
            omega)
          refine ⟨key, after, copied, writtenAll, ?_⟩
          rw [empty]
          simp
          omega
      · next done =>
          have all : bytes = text := by
            rw [taken, List.take_of_length_le (by omega)]
          refine ⟨newStr, strings, rfl, all ▸ written, ?_⟩
          constructor
          · exact fun none => ⟨none, by omega⟩
          · exact And.left

theorem repContents_fulltext {store : Store} {key : Nat} {mutable : Bool} {strKey : StrKey}
    {text : Bytes} (found : store.reps key = some ⟨mutable, .fulltext strKey⟩)
    (present : store.strings.text strKey = some text) : repContents store 1 key = .ok text := by
  have size : repContentsSize store key = .ok text.length := by
    simp only [repContentsSize, readRep, found]
    exact stringSize_eq present
  have read : repReadRange store 1 key 0 text.length = .ok text := by
    simp only [repReadRange, readLevel, readRep, found]
    rw [stringRead_eq present, List.drop_zero, List.take_length]
  simp [repContents, size, read]

section Copies

variable {store : Store} {depth : Nat} {text : Bytes}

theorem StoreWellFormed.in_range (wellFormed : StoreWellFormed store) {key : Nat} {found : Rep}
    (isFound : store.reps key = some found) : key < store.nextRep := by
  by_contra beyond
  rw [wellFormed.freshReps key (by omega)] at isFound
  cases isFound

/-- A new rep over the one new string is a mutable copy. -/
theorem StoreWellFormed.writeNewRep_copies (wellFormed : StoreWellFormed store) {strings : StringsTable}
    {strKey : StrKey} (written : Written store.strings text strings (some strKey)) (rep : Option Nat)
    (immutable : ∀ old, rep = some old → ∃ found, store.reps old = some found ∧ found.mutable = false) :
    MutableCopy store rep text store.nextRep
      (writeNewRep { store with strings := strings } (fulltextRep true strKey)).2 := by
  obtain ⟨rfl, records, rfl, rfl⟩ := written
  have stored : (writeNewRep { store with strings :=
      ⟨Function.update store.strings.records (some store.strings.nextKey) (some records),
        store.strings.nextKey + 1⟩ } (fulltextRep true (some store.strings.nextKey))).2.reps
      store.nextRep = some (fulltextRep true (some store.strings.nextKey)) := by
    simp [writeNewRep, writeRep]
  have others (other : Nat) (distinct : other ≠ store.nextRep) :
      (writeNewRep { store with strings :=
        ⟨Function.update store.strings.records (some store.strings.nextKey) (some records),
          store.strings.nextKey + 1⟩ } (fulltextRep true (some store.strings.nextKey))).2.reps
        other = store.reps other := by
    simp [writeNewRep, writeRep, distinct]
  exact {
    fulltext := by
      refine ⟨_, stored, ?_, ?_⟩
      · intro other found distinct isFound member
        rw [others other distinct] at isFound
        exact absurd (wellFormed.known other found isFound _ member) (lt_irrefl _)
      · intro other distinct
        simp [writeNewRep, writeRep, distinct]
    contents := repContents_fulltext stored (by simp [writeNewRep, writeRep, StringsTable.text])
    others := others
    given := by
      intro old isRep
      obtain ⟨found, isFound, -⟩ := immutable old isRep
      exact others old (ne_of_lt (wellFormed.in_range isFound))
    kept := by
      intro old found isRep isFound isMutable
      obtain ⟨other, same, isImmutable⟩ := immutable old isRep
      rw [isFound] at same
      cases same
      rw [isMutable] at isImmutable
      cases isImmutable }

/-- A mutable rep is returned as it is. -/
theorem StoreWellFormed.mutable_copies (wellFormed : StoreWellFormed store) {key : Nat} {found : Rep}
    (isFound : store.reps key = some found) (isMutable : found.mutable = true)
    (whole : repText store depth key = some text) : MutableCopy store (some key) text key store := by
  obtain ⟨strKey, kind⟩ := wellFormed.mutable key found isFound isMutable
  obtain ⟨mutable, kind'⟩ := found
  dsimp only at kind isMutable
  subst kind isMutable
  have present : store.strings.text strKey = some text := by
    cases depth with
    | zero => cases whole
    | succ depth =>
        rw [repText, isFound] at whole
        exact (storedText_some whole).1
  exact {
    fulltext := by
      refine ⟨strKey, isFound, ?_, fun _ _ => rfl⟩
      intro other found distinct otherFound
      exact wellFormed.unshared key other _ found isFound otherFound (Ne.symm distinct) strKey
        (List.mem_singleton_self strKey)
    contents := repContents_fulltext isFound present
    others := fun _ _ => rfl
    given := fun _ _ => rfl
    kept := by
      intro old found isRep _ _
      cases isRep
      exact ⟨rfl, rfl⟩ }

/-- A rep without a string cannot be read. -/
theorem StoreWellFormed.unnamed_refuses (wellFormed : StoreWellFormed store) (rep : Option Nat) :
    ¬ MutableCopy store rep text store.nextRep (writeNewRep store (fulltextRep true none)).2 := by
  intro copy
  have contents := copy.contents
  simp [repContents, repContentsSize, readRep, writeNewRep, writeRep, fulltextRep, stringSize,
    locateKey, wellFormed.unnamed] at contents

theorem StoreWellFormed.fulltext_copies (wellFormed : StoreWellFormed store) {old : Nat} {oldStr : StrKey}
    (found : store.reps old = some ⟨false, .fulltext oldStr⟩)
    (whole : repText store depth old = some text) :
    ∃ key next, getMutableRep store depth (some old) = .ok (key, next) ∧
      MutableCopy store (some old) text key next := by
  have present : store.strings.text oldStr = some text := by
    cases depth with
    | zero => cases whole
    | succ depth =>
        rw [repText, found] at whole
        exact (storedText_some whole).1
  obtain ⟨records, isRecords, rfl⟩ := Option.map_eq_some_iff.mp present
  have copied : stringCopy store.strings oldStr = .ok (some store.strings.nextKey,
      ⟨Function.update store.strings.records (some store.strings.nextKey) (some records),
        store.strings.nextKey + 1⟩) := by
    simp [stringCopy, getKeyAndBump, isRecords, wellFormed.freshStrings _ le_rfl]
  have copies := wellFormed.writeNewRep_copies
    (show Written store.strings records.flatten _ (some (some store.strings.nextKey)) from
      ⟨rfl, records, rfl, rfl⟩) (some old) (by
      intro other isOld
      cases isOld
      exact ⟨_, found, rfl⟩)
  refine ⟨_, _, ?_, copies⟩
  simp only [getMutableRep, readRep, found, Bool.false_eq_true, if_false, copied]
  rfl

/-- The undeltified text becomes a new string, unless it is empty. -/
theorem StoreWellFormed.delta_copies_iff (wellFormed : StoreWellFormed store) {old : Nat}
    {windows : List DeltaWindow} (found : store.reps old = some ⟨false, .delta windows⟩)
    (whole : repText store depth old = some text) (readable : Readable store depth old) :
    (∃ key next, getMutableRep store depth (some old) = .ok (key, next) ∧
      MutableCopy store (some old) text key next) ↔ text ≠ [] := by
  obtain ⟨reads, size⟩ := repText_reads store depth old text whole readable
  obtain ⟨newStr, strings, copied, written, empty⟩ := copyFulltext_written reads
    (wellFormed.freshStrings _ le_rfl) (text.length + 1)
    (show Written store.strings [] store.strings none from ⟨rfl, rfl⟩) rfl (by simp)
  have got : getMutableRep store depth (some old) = .ok (writeNewRep { store with strings := strings }
      (fulltextRep true (newStr.getD none))) := by
    simp only [getMutableRep, readRep, found, Bool.false_eq_true, if_false, size]
    rw [List.length_nil] at copied
    rw [copied]
  rw [got]
  cases newStr with
  | none =>
      obtain ⟨rfl, rfl⟩ := written
      simp only [ne_eq, not_true_eq_false, iff_false, not_exists, not_and]
      intro key next isNext copy
      cases isNext
      exact wellFormed.unnamed_refuses _ copy
  | some strKey =>
      have nonempty : text ≠ [] := by
        intro none
        have := empty.mpr ⟨rfl, by simp [none]⟩
        cases this
      refine ⟨fun _ => nonempty, fun _ => ⟨_, _, rfl, ?_⟩⟩
      apply wellFormed.writeNewRep_copies written (some old)
      intro other isOld
      cases isOld
      exact ⟨_, found, rfl⟩

/-- The copy is faithful unless an immutable delta with an empty text is given. -/
theorem getMutableRep_copies_iff (wellFormed : StoreWellFormed store) (rep : Option Nat)
    (named : HasText store depth text rep) :
    (∃ key next, getMutableRep store depth rep = .ok (key, next) ∧
      MutableCopy store rep text key next) ↔ ¬ (text = [] ∧ IsImmutableDelta store rep) := by
  cases rep with
  | none =>
      obtain rfl := named
      have written := written_append (wellFormed.freshStrings _ le_rfl)
        (show Written store.strings [] store.strings none from ⟨rfl, rfl⟩) []
      have copies := wellFormed.writeNewRep_copies written none (by simp)
      refine ⟨?_, fun _ => ⟨_, _, rfl, copies⟩⟩
      rintro - ⟨-, key, windows, isNone, -⟩
      cases isNone
  | some old =>
      obtain ⟨whole, readable⟩ := named
      obtain ⟨found, isFound⟩ : ∃ found, store.reps old = some found := by
        cases isFound : store.reps old with
        | none =>
            cases depth <;> simp [repText, isFound] at whole
        | some found => exact ⟨found, rfl⟩
      obtain ⟨mutable, kind⟩ := found
      -- only an immutable delta needs the undeltifying loop
      have other (different : ∀ windows, (⟨mutable, kind⟩ : Rep) ≠ ⟨false, .delta windows⟩) :
          ¬ (text = [] ∧ IsImmutableDelta store (some old)) := by
        rintro ⟨-, key, windows, isOld, isDelta⟩
        cases isOld
        rw [isFound] at isDelta
        exact different windows (Option.some.inj isDelta)
      cases mutable with
      | true =>
          have copies := wellFormed.mutable_copies isFound rfl whole
          refine ⟨fun _ => other (by simp), fun _ => ⟨old, store, ?_, copies⟩⟩
          simp [getMutableRep, readRep, isFound]
      | false =>
          cases kind with
          | fulltext oldStr =>
              exact ⟨fun _ => other (by simp), fun _ => wellFormed.fulltext_copies isFound whole⟩
          | delta windows =>
              rw [wellFormed.delta_copies_iff isFound whole readable]
              constructor
              · exact fun nonempty empty => nonempty empty.1
              · exact fun faithful none => faithful ⟨none, old, windows, rfl, isFound⟩

end Copies

/-- Three strings, and a delta whose windows read the base text from both ends. -/
theorem slidingStore_wellFormed (firstView secondView : UInt8) :
    StoreWellFormed (slidingStore firstView secondView) where
  freshStrings := by
    intro n beyond
    have beyond' : 3 ≤ n := beyond
    simp [slidingStore, show n ≠ 0 by omega, show n ≠ 1 by omega, show n ≠ 2 by omega]
  unnamed := rfl
  freshReps := by
    intro key beyond
    have beyond' : 2 ≤ key := beyond
    simp [slidingStore, show key ≠ 0 by omega, show key ≠ 1 by omega]
  known := by
    intro key rep found n member
    simp only [slidingStore] at found ⊢
    split at found
    · cases found
      simp [RepKind.strKeys] at member
      omega
    · split at found
      · cases found
        simp [RepKind.strKeys] at member
        omega
      · cases found
  unshared := by
    intro first second one two foundOne foundTwo distinct strKey
    simp only [slidingStore] at foundOne foundTwo
    split at foundOne <;> split at foundTwo
    · omega
    · split at foundTwo <;> cases foundOne <;> cases foundTwo
      simp only [RepKind.strKeys, List.map_cons, List.map_nil, List.mem_singleton]
      rintro rfl
      simp
    · split at foundOne <;> cases foundOne
      cases foundTwo
      simp only [RepKind.strKeys, List.map_cons, List.map_nil, List.mem_cons]
      rintro (rfl | rfl | none) <;> simp_all
    · split at foundOne <;> split at foundTwo <;> cases foundOne <;> cases foundTwo
      omega
  mutable := by
    intro key rep found isMutable
    simp only [slidingStore] at found
    split at found
    · cases found
      cases isMutable
    · split at found
      · cases found
        cases isMutable
      · cases found

theorem getMutableRep_copies_two_windows :
    (∃ key next, getMutableRep (slidingStore 1 3) 2 (some 1) = .ok (key, next) ∧
      MutableCopy (slidingStore 1 3) (some 1) [11, 13] key next) ↔
      ¬ ([11, 13] = ([] : Bytes) ∧ IsImmutableDelta (slidingStore 1 3) (some 1)) :=
  getMutableRep_copies_iff (slidingStore_wellFormed 1 3) (some 1)
    (show HasText (slidingStore 1 3) 2 [11, 13] (some 1) from
      ⟨by decide, by decide, by simp [slidingStore, Readable]⟩)

/-- One window without instructions over an empty base text. -/
def emptyDeltaStore : Store where
  strings := ⟨fun key =>
    if key = some 0 then some [[]]
    else if key = some 1 then some [[0, 0, 0, 0, 0]]
    else none, 2⟩
  reps := fun key =>
    if key = 0 then some ⟨false, .fulltext (some 0)⟩
    else if key = 1 then some ⟨false, .delta [⟨0, 0, some 1, 0⟩]⟩
    else none
  nextRep := 2

/-- The text of the delta is empty, and its copy refers to a string that does not exist. -/
theorem copy_of_empty_delta_has_no_string :
    HasText emptyDeltaStore 2 [] (some 1) ∧
      (getMutableRep emptyDeltaStore 2 (some 1)).map (fun copy => copy.2.reps copy.1) =
        .ok (some ⟨true, .fulltext none⟩) ∧
      (getMutableRep emptyDeltaStore 2 (some 1)).bind (fun copy => repContents copy.2 1 copy.1) =
        .error ⟨.fsNoSuchString, "locate_key: no such string `'"⟩ :=
  ⟨⟨by decide, by decide, by simp [emptyDeltaStore, Readable]⟩, by decide,
    by decide⟩

end Subversion.Fs
