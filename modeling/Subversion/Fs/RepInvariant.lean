/-
This file states the invariant of the representations and strings tables, and shows that every
operation keeps it.
-/

import Subversion.Lib.Budget
import Subversion.Fs.RepReading
import Subversion.Fs.RepOps

namespace Subversion.Fs

open Budget Framing Delta Svndiff

/-- Every delta that is ever stored has one window of this kind. -/
structure GoodEntry (strings : StringsTable) (entry : DeltaWindow) (window : TxdeltaWindow) :
    Prop where
  offset : entry.offset = 0
  positive : 0 < entry.size
  short : entry.size ≤ streamChunkSize
  stored : ∃ data, strings.text entry.strKey = some data ∧ data.length < 2 ^ 64 ∧
    decodeWindow data = some window
  sum : (window.ops.map TxdeltaOp.length).sum = entry.size

/-- The read of a delta with one window, without the parser. -/
def singleRead (reader : Reader) (entry : DeltaWindow) (window : TxdeltaWindow)
    (offset len : Nat) : Except SvnError Bytes :=
  if entry.size ≤ offset then .ok []
  else
    match playOps reader entry.base window offset len window.ops ⟨[], none⟩ 0 with
    | .error error => .error error
    | .ok (tbuf, copyAmt) => .ok ((tbuf.drop offset).take copyAmt)

section SingleWindow

variable {strings : StringsTable} {entry : DeltaWindow} {window : TxdeltaWindow}

theorem readWindows_cons (strings : StringsTable) (reader : Reader) {thisOff thisLen : Nat}
    (offsetInt : atoi entry.offset = .ok thisOff) (sizeInt : atoi entry.size = .ok thisLen)
    (offset len : Nat) (windows : List DeltaWindow) (parser : DecodeBaton WindowBaton) :
    readWindows strings reader offset len (entry :: windows) parser =
      if sizeSub (sizeAdd thisOff thisLen) 1 < offset then
        readWindows strings reader offset len windows parser
      else if sizeAdd offset len < thisOff then .ok parser
      else
        match pumpString strings (windowHandler reader) entry.strKey
            (pumpFuel strings entry.strKey) 0 (aimBaton parser thisOff entry.base) with
        | .error error => .error error
        | .ok next =>
            if next.drain.baton.done then .ok next
            else readWindows strings reader offset len windows next := by
  rewrite [readWindows, offsetInt, sizeInt]
  rfl

/-- The parser is closed without a complaint, and its output is the read. -/
theorem readDelta_eq (strings : StringsTable) (reader : Reader) {windows : List DeltaWindow}
    (some : windows ≠ []) (offset len : Nat) :
    (∀ last, readWindows strings reader offset len windows
        (freshParser ⟨offset, 0, 0, len, [], false⟩) = .ok last →
      last.errorOnEarlyClose = false →
      readDelta strings reader windows offset len = .ok last.drain.baton.buf) ∧
    ∀ error, readWindows strings reader offset len windows
        (freshParser ⟨offset, 0, 0, len, [], false⟩) = .error error →
      readDelta strings reader windows offset len = .error error := by
  constructor
  · intro last read early
    rw [readDelta, if_neg some, writeHandler_streamHeader]
    simp only [read, closeHandler, early, Bool.false_eq_true, false_and, if_false, windowHandler]
  · intro error read
    rw [readDelta, if_neg some, writeHandler_streamHeader]
    simp only [read]

/-- A delta with one window is read by playing its instructions. -/
theorem readDelta_single (good : GoodEntry strings entry window) (reader : Reader)
    (offset len : Nat) :
    readDelta strings reader [entry] offset len = singleRead reader entry window offset len := by
  obtain ⟨data, present, small, decoded⟩ := good.stored
  have positive := good.positive
  have short := good.short
  simp only [streamChunkSize] at short
  have offsetInt : atoi entry.offset = .ok 0 := by
    rw [atoi, good.offset, if_pos (by decide)]
  have sizeInt : atoi entry.size = .ok entry.size := if_pos (by omega)
  have ends : sizeSub (sizeAdd 0 entry.size) 1 = entry.size - 1 := by
    rw [sizeAdd_small (by omega), Nat.zero_add, sizeSub_small positive (by omega)]
  obtain ⟨reads, fails⟩ := readDelta_eq strings reader (List.cons_ne_nil entry []) offset len
  have read := readWindows_cons strings reader offsetInt sizeInt offset len []
    (freshParser ⟨offset, 0, 0, len, [], false⟩)
  rw [ends, if_neg (Nat.not_lt_zero _)] at read
  rw [singleRead]
  by_cases past : entry.size ≤ offset
  · rw [if_pos past]
    rw [if_pos (by omega)] at read
    exact reads _ read rfl
  · rw [if_neg past]
    rw [if_neg (by omega)] at read
    generalize aimedEq : aimBaton (freshParser ⟨offset, 0, 0, len, [], false⟩) 0 entry.base = aimed
      at read
    have between : Between aimed := by
      rw [← aimedEq]
      exact ⟨rfl, rfl, rfl, rfl⟩
    have baton : aimed.drain.baton = ⟨offset, 0, entry.base, len, [], false⟩ := by
      rw [← aimedEq]
      rfl
    have state : aimed.drain.state = ⟨0, 0, false⟩ := by
      rw [← aimedEq]
      rfl
    obtain ⟨handles, refuses⟩ := pumpString_window (windowHandler reader) present decoded small
      between (by rw [state]; exact not_slidesBackward_start _ _) (by rw [baton])
    rw [baton] at handles refuses
    cases played : playOps reader entry.base window offset len window.ops ⟨[], none⟩ 0 with
    | error error =>
        have handled : windowHandler reader ⟨offset, 0, entry.base, len, [], false⟩ (some window) =
            (⟨offset, 0, entry.base, len, [], false⟩, some error) := by
          simp only [windowHandler, Bool.false_eq_true, if_false, Nat.sub_zero, List.length_nil,
            played]
        rw [refuses _ _ handled] at read
        exact fails error read
    | ok result =>
        obtain ⟨tbuf, copyAmt⟩ := result
        have handled : ∃ after, windowHandler reader ⟨offset, 0, entry.base, len, [], false⟩
            (some window) = (after, none) ∧ after.buf = (tbuf.drop offset).take copyAmt := by
          simp only [windowHandler, Bool.false_eq_true, if_false, Nat.sub_zero, List.length_nil,
            played]
          exact ⟨_, rfl, rfl⟩
        obtain ⟨after, passed, buf⟩ := handled
        rw [handles _ passed] at read
        dsimp only at read
        rw [readWindows, ite_self] at read
        rw [reads _ read between.early]
        exact congrArg Except.ok buf

end SingleWindow

/-- A computation that was cut off is not compared any further. -/
abbrev CutBelow {A : Type} (first second : Except SvnError A) : Prop :=
  Below SvnError.stackExhausted first second

section Approximation

variable {reader other : Reader} {baseRep : Nat} {window : TxdeltaWindow}

theorem playOp_below (below : ∀ offset len, CutBelow (reader baseRep offset len)
    (other baseRep offset len)) (play : Play) (op : TxdeltaOp) :
    CutBelow (playOp reader baseRep window play op) (playOp other baseRep window play op) := by
  have source : CutBelow (sourceView reader baseRep window op play.sbuf)
      (sourceView other baseRep window op play.sbuf) := by
    unfold sourceView
    split
    · rcases below window.sviewOffset window.sviewLen with out | same
      · rw [out]
        exact Or.inl rfl
      · rw [same]
        exact Below.refl _
    · exact Below.refl _
  unfold playOp
  rcases source with out | same
  · rw [out]
    exact Or.inl rfl
  · rw [same]
    exact Below.refl _

theorem playOps_below (below : ∀ offset len, CutBelow (reader baseRep offset len)
    (other baseRep offset len)) (discard want : Nat) (ops : List TxdeltaOp) :
    ∀ (play : Play) (copyAmt : Nat),
      CutBelow (playOps reader baseRep window discard want ops play copyAmt)
        (playOps other baseRep window discard want ops play copyAmt) := by
  induction ops with
  | nil => exact fun play copyAmt => Below.refl _
  | cons op ops ih =>
      intro play copyAmt
      rw [playOps, playOps]
      rcases playOp_below below play op with out | same
      · rw [out]
        exact Or.inl rfl
      · rw [same]
        cases playOp other baseRep window play op with
        | error error => exact Below.refl _
        | ok next =>
            dsimp only
            split
            · split
              · exact Below.refl _
              · exact ih _ _
            · exact ih _ _

theorem singleRead_below {entry : DeltaWindow}
    (below : ∀ offset len, CutBelow (reader entry.base offset len) (other entry.base offset len))
    (offset len : Nat) :
    CutBelow (singleRead reader entry window offset len)
      (singleRead other entry window offset len) := by
  unfold singleRead
  split
  · exact Below.refl _
  · rcases playOps_below below offset len window.ops ⟨[], none⟩ 0 with out | same
    · rw [out]
      exact Or.inl rfl
    · rw [same]
      exact Below.refl _

end Approximation

section Playing

variable {reader : Reader} {baseRep : Nat} {window : TxdeltaWindow}

theorem playOp_length {play next : Play} {op : TxdeltaOp}
    (played : playOp reader baseRep window play op = .ok next) :
    next.tbuf.length = play.tbuf.length + op.length := by
  unfold playOp at played
  split at played
  · cases played
  · split at played
    · cases played
    · split at played
      · next applied =>
          cases played
          exact applyOp_length applied
      · cases played

/-- The instructions are all played, or the request was filled before the end. -/
theorem playOps_stops (discard want : Nat) (ops : List TxdeltaOp) :
    ∀ {play : Play} {copyAmt : Nat} {tbuf : Bytes} {amount : Nat},
      playOps reader baseRep window discard want ops play copyAmt = .ok (tbuf, amount) →
      (∃ final, ops.foldlM (playOp reader baseRep window) play = .ok final ∧
        final.tbuf.length = play.tbuf.length + (ops.map TxdeltaOp.length).sum) ∨
      (amount = want ∧ discard + want < tbuf.length ∧
        tbuf.length ≤ play.tbuf.length + (ops.map TxdeltaOp.length).sum) := by
  induction ops with
  | nil =>
      intro play copyAmt tbuf amount played
      exact Or.inl ⟨play, rfl, by simp⟩
  | cons op ops ih =>
      intro play copyAmt tbuf amount played
      rw [playOps] at played
      rw [List.map_cons, List.sum_cons]
      cases first : playOp reader baseRep window play op with
      | error error => rw [first] at played; cases played
      | ok next =>
          rw [first] at played
          have length := playOp_length first
          have continued : (∃ copied, playOps reader baseRep window discard want ops next copied =
              .ok (tbuf, amount)) ∨ (amount = want ∧ discard + want < tbuf.length ∧
                tbuf = next.tbuf) := by
            dsimp only at played
            split at played
            · split at played
              · cases played
                exact Or.inr ⟨rfl, by omega, rfl⟩
              · exact Or.inl ⟨_, played⟩
            · exact Or.inl ⟨_, played⟩
          rcases continued with ⟨copied, continues⟩ | ⟨full, more, rfl⟩
          · rcases ih continues with ⟨final, whole, grown⟩ | ⟨full, more, le⟩
            · left
              refine ⟨final, ?_, by omega⟩
              rw [List.foldlM_cons, first]
              exact whole
            · exact Or.inr ⟨full, more, by omega⟩
          · exact Or.inr ⟨full, more, by omega⟩

end Playing

/-- The reader returns every range of the text. -/
def Serves (reader : Reader) (key : Nat) (text : Bytes) : Prop :=
  ∀ offset len, reader key offset len = .ok ((text.drop offset).take len)

/-- Only fresh keys have been written. -/
structure Grows (before after : StringsTable) : Prop where
  nextKey : before.nextKey ≤ after.nextKey
  kept : ∀ key, (∀ n, key = some n → n < before.nextKey) →
    after.records key = before.records key
  fresh : ∀ n, after.nextKey ≤ n → after.records (some n) = none

/-- The bytes appended so far stand in one fresh string. Without a key, nothing was appended. -/
structure Appended (before : StringsTable) (bytes : Bytes) (key : Option StrKey)
    (after : StringsTable) : Prop where
  grows : Grows before after
  start : key = none → bytes = []
  string : ∀ found, key = some found → ∃ n, found = some n ∧ before.nextKey ≤ n ∧
    n < after.nextKey ∧ after.text found = some bytes

theorem Grows.refl {table : StringsTable}
    (fresh : ∀ n, table.nextKey ≤ n → table.records (some n) = none) : Grows table table :=
  ⟨le_rfl, fun _ _ => rfl, fresh⟩

theorem Appended.start_of_fresh {table : StringsTable}
    (fresh : ∀ n, table.nextKey ≤ n → table.records (some n) = none) :
    Appended table [] none table :=
  ⟨Grows.refl fresh, fun _ => rfl, by simp⟩

theorem Appended.append {before after : StringsTable} {bytes : Bytes} {key : Option StrKey}
    (appended : Appended before bytes key after) (more : Bytes) :
    Appended before (bytes ++ more) (some (stringAppend after key more).1)
      (stringAppend after key more).2 := by
  obtain ⟨⟨nextKey, kept, fresh⟩, start, string⟩ := appended
  cases key with
  | none =>
      have unused := fresh after.nextKey le_rfl
      refine ⟨⟨Nat.le_succ_of_le nextKey, ?_, ?_⟩, by simp, ?_⟩
      · intro key older
        have other : key ≠ some after.nextKey := by
          intro same
          have := older _ same
          omega
        rw [← kept key older]
        exact Function.update_of_ne other _ _
      · intro n later
        have after' : after.nextKey + 1 ≤ n := later
        have other : some n ≠ some after.nextKey := by
          intro same
          cases same
          omega
        exact (Function.update_of_ne other _ _).trans (fresh n (by omega))
      · rintro _ ⟨⟩
        refine ⟨after.nextKey, rfl, nextKey, Nat.lt_succ_self _, ?_⟩
        simp [stringAppend, getKeyAndBump, StringsTable.text, unused, start rfl]
  | some key =>
      obtain ⟨n, rfl, old, new, text⟩ := string key rfl
      refine ⟨⟨nextKey, ?_, ?_⟩, by simp, ?_⟩
      · intro key older
        have other : key ≠ some n := by
          intro same
          have := older _ same
          omega
        rw [← kept key older]
        exact Function.update_of_ne other _ _
      · intro m later
        have after' : after.nextKey ≤ m := later
        have other : some m ≠ some n := by
          intro same
          cases same
          omega
        exact (Function.update_of_ne other _ _).trans (fresh m after')
      · rintro _ ⟨⟩
        refine ⟨n, rfl, old, new, ?_⟩
        unfold StringsTable.text at text
        obtain ⟨records, found, rfl⟩ := Option.map_eq_some_iff.mp text
        simp [stringAppend, StringsTable.text, found]

/-- A copy is a fresh string with the same text. -/
theorem stringCopy_appended {table after : StringsTable} {key newKey : StrKey}
    (fresh : ∀ n, table.nextKey ≤ n → table.records (some n) = none)
    (copied : stringCopy table key = .ok (newKey, after)) :
    ∃ bytes, table.text key = some bytes ∧ Appended table bytes (some newKey) after := by
  unfold stringCopy at copied
  simp only [getKeyAndBump] at copied
  split at copied
  · next records found =>
      cases copied
      refine ⟨records.flatten, by simp [StringsTable.text, found], ⟨Nat.le_succ _, ?_, ?_⟩, by simp,
        ?_⟩
      · intro key older
        apply Function.update_of_ne
        intro same
        have := older _ same
        omega
      · intro n later
        have later' : table.nextKey + 1 ≤ n := later
        refine (Function.update_of_ne ?_ _ _).trans (fresh n (by omega))
        intro same
        cases same
        omega
      · rintro _ ⟨⟩
        refine ⟨table.nextKey, rfl, le_rfl, Nat.lt_succ_self _, ?_⟩
        simp [StringsTable.text, fresh table.nextKey le_rfl]
  · cases copied

/-- Deleting strings removes exactly their records. -/
theorem deleteStrings_eq (keys : List StrKey) {table after : StringsTable}
    (deleted : deleteStrings table keys = .ok after) :
    after.nextKey = table.nextKey ∧
      ∀ key, after.records key = if key ∈ keys then none else table.records key := by
  unfold deleteStrings at deleted
  induction keys generalizing table with
  | nil =>
      cases deleted
      simp
  | cons first keys ih =>
      rw [List.foldlM_cons] at deleted
      cases removed : stringDelete table first with
      | error error => rw [removed] at deleted; cases deleted
      | ok middle =>
          rw [removed] at deleted
          obtain ⟨sameNext, records⟩ := ih deleted
          unfold stringDelete at removed
          split at removed
          · cases removed
            refine ⟨sameNext, ?_⟩
            intro key
            rw [records key]
            simp only [List.mem_cons, Function.update_apply]
            split
            · next later => rw [if_pos (Or.inr later)]
            · next notLater =>
                by_cases same : key = first
                · rw [if_pos same, if_pos (Or.inl same)]
                · rw [if_neg same, if_neg (by tauto)]
          · cases removed

/-- Strings are never shared, and every delta is immutable and has one good window. -/
structure RepsInvariant (store : Store) : Prop where
  freshStrings : ∀ n, store.strings.nextKey ≤ n → store.strings.records (some n) = none
  freshReps : ∀ key, store.nextRep ≤ key → store.reps key = none
  known : ∀ key rep, store.reps key = some rep → ∀ strKey ∈ rep.kind.strKeys,
    ∃ n, n < store.strings.nextKey ∧ strKey = some n
  unshared : ∀ first second one two, store.reps first = some one → store.reps second = some two →
    first ≠ second → ∀ strKey ∈ one.kind.strKeys, strKey ∉ two.kind.strKeys
  single : ∀ key rep windows, store.reps key = some rep → rep.kind = .delta windows →
    rep.mutable = false ∧
      ∃ entry window, windows = [entry] ∧ GoodEntry store.strings entry window

/-- One rep is replaced. Its new strings are fresh or were its own, and no other rep's change. -/
structure Replaces (store next : Store) (key : Nat) (rep : Option Rep) : Prop where
  reps : next.reps = Function.update store.reps key rep
  nextRep : store.nextRep ≤ next.nextRep
  inRange : rep ≠ none → key < next.nextRep
  nextKey : store.strings.nextKey ≤ next.strings.nextKey
  freshStrings : ∀ n, next.strings.nextKey ≤ n → next.strings.records (some n) = none
  kept : ∀ other found, other ≠ key → store.reps other = some found →
    ∀ strKey ∈ found.kind.strKeys, next.strings.records strKey = store.strings.records strKey
  own : ∀ found, rep = some found → ∀ strKey ∈ found.kind.strKeys,
    (∃ n, strKey = some n ∧ store.strings.nextKey ≤ n ∧ n < next.strings.nextKey) ∨
      ∃ old, store.reps key = some old ∧ strKey ∈ old.kind.strKeys

theorem GoodEntry.of_kept {strings next : StringsTable} {entry : DeltaWindow}
    {window : TxdeltaWindow} (good : GoodEntry strings entry window)
    (kept : next.records entry.strKey = strings.records entry.strKey) :
    GoodEntry next entry window := by
  obtain ⟨offset, positive, short, ⟨data, present, small, decoded⟩, sum⟩ := good
  refine ⟨offset, positive, short, ⟨data, ?_, small, decoded⟩, sum⟩
  rw [StringsTable.text, kept]
  exact present

section Invariant

variable {store next : Store} {key : Nat} {rep : Option Rep}

theorem Replaces.other (replaces : Replaces store next key rep) {other : Nat}
    (distinct : other ≠ key) : next.reps other = store.reps other := by
  rw [replaces.reps, Function.update_of_ne distinct]

theorem Replaces.this (replaces : Replaces store next key rep) : next.reps key = rep := by
  rw [replaces.reps, Function.update_self]

/-- A new string of the replaced rep belongs to no other rep. -/
theorem Replaces.not_other (replaces : Replaces store next key rep)
    (invariant : RepsInvariant store) {found : Rep} (new : rep = some found) {other : Nat}
    {otherRep : Rep} (distinct : other ≠ key) (stored : store.reps other = some otherRep)
    {strKey : StrKey} (member : strKey ∈ found.kind.strKeys) : strKey ∉ otherRep.kind.strKeys := by
  intro shared
  rcases replaces.own found new strKey member with ⟨n, rfl, fresh, -⟩ | ⟨old, present, mine⟩
  · obtain ⟨m, small, same⟩ := invariant.known other otherRep stored _ shared
    cases same
    omega
  · exact invariant.unshared key other old otherRep present stored distinct.symm strKey mine shared

/-- It is enough to look at the rep that is replaced. -/
theorem RepsInvariant.replace (invariant : RepsInvariant store)
    (replaces : Replaces store next key rep)
    (good : ∀ found windows, rep = some found → found.kind = .delta windows →
      found.mutable = false ∧
        ∃ entry window, windows = [entry] ∧ GoodEntry next.strings entry window) :
    RepsInvariant next := by
  have growing := replaces.nextKey
  constructor
  · exact replaces.freshStrings
  · intro other beyond
    by_cases same : other = key
    · subst same
      rw [replaces.this]
      by_contra present
      have := replaces.inRange present
      omega
    · rw [replaces.other same]
      exact invariant.freshReps other (by have := replaces.nextRep; omega)
  · intro other found stored strKey member
    by_cases same : other = key
    · subst same
      rw [replaces.this] at stored
      rcases replaces.own found stored strKey member with ⟨n, rfl, -, small⟩ | ⟨old, present, mine⟩
      · exact ⟨n, small, rfl⟩
      · obtain ⟨n, small, rfl⟩ := invariant.known other old present strKey mine
        exact ⟨n, by omega, rfl⟩
    · rw [replaces.other same] at stored
      obtain ⟨n, small, rfl⟩ := invariant.known other found stored strKey member
      exact ⟨n, by omega, rfl⟩
  · intro first second one two storedFirst storedSecond distinct strKey member
    by_cases sameFirst : first = key
    · subst sameFirst
      rw [replaces.this] at storedFirst
      rw [replaces.other distinct.symm] at storedSecond
      exact replaces.not_other invariant storedFirst distinct.symm storedSecond member
    · rw [replaces.other sameFirst] at storedFirst
      by_cases sameSecond : second = key
      · subst sameSecond
        rw [replaces.this] at storedSecond
        intro shared
        exact replaces.not_other invariant storedSecond sameFirst storedFirst shared member
      · rw [replaces.other sameSecond] at storedSecond
        exact invariant.unshared first second one two storedFirst storedSecond distinct strKey member
  · intro other found windows stored kind
    by_cases same : other = key
    · subst same
      rw [replaces.this] at stored
      exact good found windows stored kind
    · rw [replaces.other same] at stored
      obtain ⟨immutable, entry, window, rfl, entryGood⟩ :=
        invariant.single other found windows stored kind
      refine ⟨immutable, entry, window, rfl, entryGood.of_kept ?_⟩
      apply replaces.kept other found same stored
      rw [kind]
      exact List.mem_singleton_self _

/-- Strings that only grow keep the strings of every rep. -/
theorem RepsInvariant.grown_kept (invariant : RepsInvariant store) {strings : StringsTable}
    (grows : Grows store.strings strings) {other : Nat} {found : Rep}
    (stored : store.reps other = some found) {strKey : StrKey}
    (member : strKey ∈ found.kind.strKeys) :
    strings.records strKey = store.strings.records strKey := by
  obtain ⟨n, small, rfl⟩ := invariant.known other found stored strKey member
  apply grows.kept
  rintro m ⟨⟩
  exact small

/-- A rep with one fresh string replaces a rep, and some of the old strings may be deleted. -/
theorem RepsInvariant.replaces_fresh (invariant : RepsInvariant store) (next : Store)
    {strings : StringsTable} {bytes : Bytes} {strKey : StrKey} {found : Rep} (deleted : List StrKey)
    (appended : Appended store.strings bytes (some strKey) strings)
    (sameKey : next.strings.nextKey = strings.nextKey)
    (records : ∀ other, next.strings.records other =
      if other ∈ deleted then none else strings.records other)
    (mine : ∀ other ∈ deleted, ∃ old, store.reps key = some old ∧ other ∈ old.kind.strKeys)
    (reps : next.reps = Function.update store.reps key (some found))
    (nextRep : store.nextRep ≤ next.nextRep) (inRange : key < next.nextRep)
    (kind : found.kind.strKeys = [strKey]) :
    Replaces store next key (some found) ∧ next.strings.text strKey = some bytes := by
  obtain ⟨n, rfl, old, new, text⟩ := appended.string strKey rfl
  have keptFresh : next.strings.records (some n) = strings.records (some n) := by
    rw [records, if_neg]
    intro member
    obtain ⟨rep, stored, owned⟩ := mine _ member
    obtain ⟨m, small, same⟩ := invariant.known key rep stored _ owned
    cases same
    omega
  refine ⟨⟨reps, nextRep, fun _ => inRange, ?_, ?_, ?_, ?_⟩, ?_⟩
  · rw [sameKey]
    exact appended.grows.nextKey
  · intro m later
    rw [records, appended.grows.fresh m (by omega), ite_self]
  · intro other otherRep distinct stored strKey member
    rw [records, if_neg, invariant.grown_kept appended.grows stored member]
    intro gone
    obtain ⟨rep, present, owned⟩ := mine _ gone
    exact invariant.unshared other key otherRep rep stored present distinct strKey member owned
  · rintro _ ⟨⟩ strKey member
    rw [kind, List.mem_singleton] at member
    subst member
    exact Or.inl ⟨n, rfl, old, by omega⟩
  · rw [StringsTable.text, keptFresh]
    exact text

end Invariant

end Subversion.Fs
