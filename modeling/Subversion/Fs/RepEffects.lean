/-
This file describes the effect of each operation on representations, and shows that the invariant
holds in every reachable state.
-/

import Subversion.Fs.RepInvariant

namespace Subversion.Fs

open Budget Framing Delta Svndiff

section Reading

variable {reader : Reader} {entry : DeltaWindow} {window : TxdeltaWindow}

/-- A window whose instructions all play is read as ranges of its text. -/
theorem singleRead_serves {final : Play}
    (played : window.ops.foldlM (playOp reader entry.base window) ⟨[], none⟩ = .ok final)
    (length : final.tbuf.length = entry.size) (offset len : Nat) :
    singleRead reader entry window offset len = .ok ((final.tbuf.drop offset).take len) := by
  rw [singleRead]
  split
  · next past => rw [List.drop_eq_nil_of_le (by omega), List.take_nil]
  · obtain ⟨tbuf, stopped, copied⟩ := playOps_copies offset len window.ops 0 played (by simp)
      (Nat.zero_le _)
    rw [stopped]
    exact congrArg Except.ok copied

/-- A read that does not play every instruction is full, and more text follows it. -/
theorem singleRead_full (sum : (window.ops.map TxdeltaOp.length).sum = entry.size)
    {offset len : Nat} {bytes : Bytes}
    (read : singleRead reader entry window offset len = .ok bytes) (inside : offset < entry.size) :
    (∃ final, window.ops.foldlM (playOp reader entry.base window) ⟨[], none⟩ = .ok final ∧
      final.tbuf.length = entry.size) ∨ (bytes.length = len ∧ offset + len < entry.size) := by
  rw [singleRead, if_neg (by omega)] at read
  cases played : playOps reader entry.base window offset len window.ops ⟨[], none⟩ 0 with
  | error error => rw [played] at read; cases read
  | ok result =>
      rw [played] at read
      obtain ⟨tbuf, copyAmt⟩ := result
      cases read
      rcases playOps_stops offset len window.ops played with ⟨final, whole, length⟩ | ⟨amount, more, le⟩
      · left
        refine ⟨final, whole, ?_⟩
        rw [length, sum]
        simp
      · right
        simp only [List.length_nil, Nat.zero_add, sum] at le
        rw [List.length_take, List.length_drop]
        omega

end Reading

/-- A reader serves only one text. -/
theorem serves_unique {reader : Reader} {key : Nat} {first second : Bytes}
    (one : Serves reader key first) (two : Serves reader key second) : first = second := by
  have same := (one 0 (first.length + second.length)).symm.trans
    (two 0 (first.length + second.length))
  simpa [List.take_of_length_le] using same

/-- A chunk read behind a prefix of the text makes a longer prefix. -/
theorem prefix_append_chunk {text bytes : Bytes} (isPrefix : bytes = text.take bytes.length)
    (len : Nat) :
    bytes ++ (text.drop bytes.length).take len =
      text.take (bytes ++ (text.drop bytes.length).take len).length := by
  have joined : bytes ++ (text.drop bytes.length).take len = text.take (bytes.length + len) := by
    rw [List.take_add, ← isPrefix]
  rw [joined, List.take_eq_take_iff, List.length_take]
  omega

section Loops

variable {store : Store} {depth rep : Nat} {before : StringsTable}

/-- The copied bytes are the text of the rep when the reads return the text. -/
theorem copyFulltext_appended (size fuel : Nat) :
    ∀ {bytes : Bytes} {newStr : Option StrKey} {strings : StringsTable}
      {result : Option StrKey × StringsTable}, Appended before bytes newStr strings →
      copyFulltext store depth rep size fuel bytes.length newStr strings = .ok result →
      ∃ whole, Appended before whole result.1 result.2 ∧
        (newStr ≠ none ∨ bytes.length < size → result.1 ≠ none) ∧
        ∀ text, Serves (repReadRange store depth) rep text → text.length = size →
          bytes = text.take bytes.length → whole = text := by
  induction fuel with
  | zero =>
      intro bytes newStr strings result appended copied
      cases copied
  | succ fuel ih =>
      intro bytes newStr strings result appended copied
      rw [copyFulltext] at copied
      split at copied
      · next more =>
          cases read : repReadRange store depth rep bytes.length
              (min (size - bytes.length) 10000) with
          | error error => rw [read] at copied; cases copied
          | ok chunk =>
              rw [read] at copied
              dsimp only at copied
              have longer := appended.append chunk
              rw [← List.length_append] at copied
              obtain ⟨whole, final, present, exact⟩ := ih longer copied
              refine ⟨whole, final, fun _ => present (Or.inl (by simp)), ?_⟩
              intro text serves length isPrefix
              apply exact text serves length
              rw [serves] at read
              cases read
              exact prefix_append_chunk isPrefix _
      · next done =>
          cases copied
          refine ⟨bytes, appended, by simp [done], ?_⟩
          intro text _ length isPrefix
          rw [isPrefix, List.take_of_length_le (by omega)]

/-- The loop of `svn_fs__rep_undeltify` writes the text of the rep. -/
theorem writeFulltext_appended (fuel : Nat) :
    ∀ {bytes : Bytes} {key : Option StrKey} {strings : StringsTable}
      {result : Option StrKey × StringsTable}, Appended before bytes key strings →
      writeFulltext store depth rep fuel bytes.length key strings = .ok result →
      ∃ whole, Appended before whole result.1 result.2 ∧ result.1 ≠ none ∧
        ∀ text, Serves (repReadRange store depth) rep text →
          bytes = text.take bytes.length → whole = text := by
  induction fuel with
  | zero =>
      intro bytes key strings result appended wrote
      cases wrote
  | succ fuel ih =>
      intro bytes key strings result appended wrote
      rw [writeFulltext] at wrote
      cases read : repReadRange store depth rep bytes.length 65536 with
      | error error => rw [read] at wrote; cases wrote
      | ok chunk =>
          rw [read] at wrote
          dsimp only at wrote
          have longer := appended.append chunk
          split at wrote
          · next ended =>
              cases wrote
              refine ⟨bytes ++ chunk, longer, by simp, ?_⟩
              intro text serves isPrefix
              rw [serves] at read
              cases read
              have past : text.length ≤ bytes.length := by
                simpa using ended
              rw [ended, List.append_nil, isPrefix, List.take_of_length_le past]
          · rw [← List.length_append] at wrote
            obtain ⟨whole, final, present, exact⟩ := ih longer wrote
            refine ⟨whole, final, present, ?_⟩
            intro text serves isPrefix
            apply exact text serves
            rw [serves] at read
            cases read
            exact prefix_append_chunk isPrefix _

/-- The stream over a rep returns its text. -/
theorem pullStream_serves {reader : Reader} {text : Bytes} (serves : Serves reader rep text)
    (chunk fuel : Nat) :
    ∀ {pulled result : Bytes}, pulled = text.take pulled.length → 0 < chunk →
      pullStream reader rep chunk fuel pulled.length pulled = .ok result → result = text := by
  induction fuel with
  | zero =>
      intro pulled result isPrefix positive ran
      cases ran
  | succ fuel ih =>
      intro pulled result isPrefix positive ran
      rw [pullStream, serves] at ran
      dsimp only at ran
      split at ran
      · next ended =>
          cases ran
          have past : text.length ≤ pulled.length := by
            rcases List.take_eq_nil_iff.mp ended with zero | dropped
            · omega
            · exact List.drop_eq_nil_iff.mp dropped
          rw [isPrefix, List.take_of_length_le past]
      · rw [← List.length_append] at ran
        exact ih (prefix_append_chunk isPrefix chunk) positive ran

end Loops

section Levels

variable {store : Store} {key : Nat} {rep : Rep}

theorem repReadRange_fulltext {strKey : StrKey} (found : store.reps key = some rep)
    (kind : rep.kind = .fulltext strKey) (depth offset len : Nat) :
    repReadRange store (depth + 1) key offset len = stringRead store.strings strKey offset len := by
  simp only [repReadRange, readLevel, readRep, found, kind]

theorem repReadRange_delta {entry : DeltaWindow} {window : TxdeltaWindow}
    (found : store.reps key = some rep) (kind : rep.kind = .delta [entry])
    (good : GoodEntry store.strings entry window) (depth offset len : Nat) :
    repReadRange store (depth + 1) key offset len =
      singleRead (repReadRange store depth) entry window offset len := by
  simp only [repReadRange, readLevel, readRep, found, kind]
  exact readDelta_single good (repReadRange store depth) offset len

theorem repContentsSize_fulltext {strKey : StrKey} (found : store.reps key = some rep)
    (kind : rep.kind = .fulltext strKey) :
    repContentsSize store key = stringSize store.strings strKey := by
  simp only [repContentsSize, readRep, found, kind]

theorem repContentsSize_delta {entry : DeltaWindow} {window : TxdeltaWindow}
    (found : store.reps key = some rep) (kind : rep.kind = .delta [entry])
    (good : GoodEntry store.strings entry window) : repContentsSize store key = .ok entry.size := by
  have short := good.short
  simp only [streamChunkSize] at short
  simp only [repContentsSize, readRep, found, kind, List.getLast?_singleton, atoi, good.offset]
  rw [if_pos (by decide), if_pos (by omega)]
  simp only [Nat.zero_add]
  rw [if_pos (by omega)]

/-- A rep is read only when it is there and some depth is left. -/
theorem repReadRange_ok {depth offset len : Nat} {bytes : Bytes}
    (read : repReadRange store depth key offset len = .ok bytes) :
    ∃ less found, depth = less + 1 ∧ store.reps key = some found := by
  cases depth with
  | zero => cases read
  | succ less =>
      cases found : store.reps key with
      | none =>
          simp only [repReadRange, readLevel, readRep, found] at read
          cases read
      | some rep => exact ⟨less, rep, rfl, rfl⟩

theorem stringRead_ok {strings : StringsTable} {strKey : StrKey} {offset len : Nat} {bytes : Bytes}
    (read : stringRead strings strKey offset len = .ok bytes) :
    ∃ text, strings.text strKey = some text := by
  unfold stringRead locateKey at read
  unfold StringsTable.text
  cases found : strings.records strKey with
  | none => rw [found] at read; cases read
  | some records => exact ⟨records.flatten, rfl⟩

/-- A fulltext serves its string. -/
theorem fulltext_serves {strKey : StrKey} {text : Bytes} (found : store.reps key = some rep)
    (kind : rep.kind = .fulltext strKey) (present : store.strings.text strKey = some text)
    (depth : Nat) :
    Serves (repReadRange store (depth + 1)) key text ∧
      repContentsSize store key = .ok text.length := by
  constructor
  · intro offset len
    rw [repReadRange_fulltext found kind, stringRead_eq present]
  · rw [repContentsSize_fulltext found kind, stringSize_eq present]

/-- A delta whose instructions all play serves the text that they build. -/
theorem delta_serves {entry : DeltaWindow} {window : TxdeltaWindow} {depth : Nat} {final : Play}
    (found : store.reps key = some rep) (kind : rep.kind = .delta [entry])
    (good : GoodEntry store.strings entry window)
    (played : window.ops.foldlM (playOp (repReadRange store depth) entry.base window) ⟨[], none⟩ =
      .ok final) (length : final.tbuf.length = entry.size) :
    Serves (repReadRange store (depth + 1)) key final.tbuf ∧
      repContentsSize store key = .ok final.tbuf.length := by
  constructor
  · intro offset len
    rw [repReadRange_delta found kind good, singleRead_serves played length]
  · rw [repContentsSize_delta found kind good, length]

/-- Either every range can be read, or the read was full and stopped before the end. -/
theorem RepsInvariant.serves_of_read {depth offset len : Nat} {bytes : Bytes}
    (invariant : RepsInvariant store)
    (read : repReadRange store depth key offset len = .ok bytes) :
    (∃ text, Serves (repReadRange store depth) key text ∧
      repContentsSize store key = .ok text.length) ∨
    ∃ size, repContentsSize store key = .ok size ∧ 0 < size ∧ size ≤ streamChunkSize ∧
      (offset < size → bytes.length = len ∧ offset + len < size) := by
  obtain ⟨less, rep, rfl, found⟩ := repReadRange_ok read
  cases kind : rep.kind with
  | fulltext strKey =>
      rw [repReadRange_fulltext found kind] at read
      obtain ⟨text, present⟩ := stringRead_ok read
      exact Or.inl ⟨text, fulltext_serves found kind present less⟩
  | delta windows =>
      obtain ⟨-, entry, window, rfl, good⟩ := invariant.single key rep windows found kind
      rw [repReadRange_delta found kind good] at read
      by_cases plays : ∃ final, window.ops.foldlM (playOp (repReadRange store less) entry.base
          window) ⟨[], none⟩ = .ok final ∧ final.tbuf.length = entry.size
      · obtain ⟨final, played, length⟩ := plays
        exact Or.inl ⟨final.tbuf, delta_serves found kind good played length⟩
      · exact Or.inr ⟨entry.size, repContentsSize_delta found kind good, good.positive, good.short,
          fun inside => (singleRead_full good.sum read inside).resolve_left plays⟩

/-- The stream over a rep returns the text that every read returns. -/
theorem RepsInvariant.stream_serves {depth : Nat} {text : Bytes} (invariant : RepsInvariant store)
    (pulled : repContentsReadStream store depth key = .ok text) :
    Serves (repReadRange store depth) key text ∧ repContentsSize store key = .ok text.length := by
  obtain ⟨bytes, first⟩ : ∃ bytes, repReadRange store depth key 0 streamChunkSize = .ok bytes := by
    unfold repContentsReadStream at pulled
    cases fuel : streamFuel store key with
    | zero => rw [fuel] at pulled; cases pulled
    | succ fuel' =>
        rw [fuel, pullStream] at pulled
        cases read : repReadRange store depth key 0 streamChunkSize with
        | error error => rw [read] at pulled; cases pulled
        | ok bytes => exact ⟨bytes, rfl⟩
  rcases invariant.serves_of_read first with ⟨whole, serves, sized⟩ | ⟨size, -, positive, short, full⟩
  · have started : ([] : Bytes) = whole.take ([] : Bytes).length := List.take_zero.symm
    have same : text = whole :=
      pullStream_serves serves streamChunkSize (streamFuel store key) started (by decide) pulled
    rw [same]
    exact ⟨serves, sized⟩
  · have := full positive
    omega

/-- The loop of `svn_fs__rep_undeltify` reads up to the end of the rep. -/
theorem RepsInvariant.writeFulltext_serves (invariant : RepsInvariant store) {depth : Nat}
    (fuel : Nat) :
    ∀ {offset : Nat} {newStr : Option StrKey} {strings : StringsTable}
      {result : Option StrKey × StringsTable},
      (∀ size, repContentsSize store key = .ok size → offset < size ∨ size = 0) →
      writeFulltext store depth key fuel offset newStr strings = .ok result →
      ∃ text, Serves (repReadRange store depth) key text ∧
        repContentsSize store key = .ok text.length := by
  induction fuel with
  | zero =>
      intro offset newStr strings result _ wrote
      cases wrote
  | succ fuel ih =>
      intro offset newStr strings result inside wrote
      rw [writeFulltext] at wrote
      cases read : repReadRange store depth key offset 65536 with
      | error error => rw [read] at wrote; cases wrote
      | ok bytes =>
          rcases invariant.serves_of_read read with serves | ⟨size, sized, positive, -, full⟩
          · exact serves
          · obtain ⟨length, more⟩ := full (by have := inside size sized; omega)
            have some : bytes ≠ [] := List.ne_nil_of_length_pos (by omega)
            rw [read] at wrote
            simp only [some, if_false] at wrote
            apply ih _ wrote
            intro other resized
            rw [sized] at resized
            cases resized
            omega

end Levels

section Deltifying

/-- The encoder's output is one window for a fresh parser. -/
theorem encodeWindow_decodes {window : TxdeltaWindow} (encodable : window.Encodable) :
    ∃ writes, encodeWrites window = some writes ∧ writes.flatten.length < 2 ^ 64 ∧
      decodeWindow writes.flatten = some window := by
  obtain ⟨code, encoded, -, small, frame⟩ := encodeWindow_frame (encodable_valid encodable)
  obtain ⟨writes, written, rfl⟩ := Option.map_eq_some_iff.mp encoded
  have accepts : (⟨0, 0, false⟩ : DecodeState).Accepts (headerOf window 0).sviewOffset
      (headerOf window 0).sviewLen := ⟨rfl, Nat.zero_le _, Nat.zero_le _, encodable.sview⟩
  obtain ⟨complete, -⟩ := frame ⟨0, 0, false⟩ rfl accepts.forward_view.2
  have parsed := complete []
  rw [List.append_nil] at parsed
  refine ⟨writes, written, small, ?_⟩
  rw [decodeWindow, parsed]
  rfl

/-- Behind the header, every write is appended to the string of the window. -/
theorem writeSvndiffStrings_appended {before : StringsTable} (writes : List Bytes) :
    ∀ (baton : WriteSvndiffBaton) {bytes : Bytes} {strKey : StrKey}, baton.headerRead = 4 →
      baton.key = some strKey → Appended before bytes baton.key baton.strings →
      ∃ last key, writes.foldlM writeSvndiffStrings baton = .ok last ∧ last.headerRead = 4 ∧
        last.key = some key ∧ Appended before (bytes ++ writes.flatten) last.key last.strings := by
  induction writes with
  | nil =>
      intro baton bytes strKey headerRead key appended
      exact ⟨baton, strKey, rfl, headerRead, key, by simpa using appended⟩
  | cons write writes ih =>
      intro baton bytes strKey headerRead key appended
      have wrote : writeSvndiffStrings baton write =
          .ok ⟨some (stringAppend baton.strings baton.key write).1, baton.size + write.length, 4,
            (stringAppend baton.strings baton.key write).2⟩ := by
        simp [writeSvndiffStrings, headerRead]
      obtain ⟨last, lastKey, folded, header, hasKey, whole⟩ :=
        ih ⟨some (stringAppend baton.strings baton.key write).1, baton.size + write.length, 4,
          (stringAppend baton.strings baton.key write).2⟩ rfl rfl (appended.append write)
      refine ⟨last, lastKey, ?_, header, hasKey, ?_⟩
      · rw [List.foldlM_cons, wrote]
        exact folded
      · rw [List.flatten_cons, ← List.append_assoc]
        exact whole

variable {strings : StringsTable}

/-- The first call writes the stream header, which is stripped, and then the window. -/
theorem writeSvndiffStrings_first
    (fresh : ∀ n, strings.nextKey ≤ n → strings.records (some n) = none) (writes : List Bytes) :
    ∃ last key, (svndiffHeader :: writes).foldlM writeSvndiffStrings ⟨none, 0, 0, strings⟩ =
        .ok last ∧ last.headerRead = 4 ∧ last.key = some key ∧
      Appended strings writes.flatten last.key last.strings := by
  have started := (Appended.start_of_fresh fresh).append []
  obtain ⟨last, key, folded, header, hasKey, appended⟩ :=
    writeSvndiffStrings_appended writes
      ⟨some (stringAppend strings none []).1, 4, 4, (stringAppend strings none []).2⟩ rfl rfl started
  refine ⟨last, key, ?_, header, hasKey, appended⟩
  rw [List.foldlM_cons]
  exact folded

/-- The delta of an empty text has no window. The stripped header leaves an empty string. -/
theorem deltifyWindows_empty
    (fresh : ∀ n, strings.nextKey ≤ n → strings.records (some n) = none) (source : Bytes) :
    ∃ written, deltifyWindows 1 ⟨txdelta source [], false, 0, strings, [], 0, 0⟩ = .ok written ∧
      written.windows = [] ∧ written.diffsize = 0 ∧ Grows strings written.strings := by
  obtain ⟨stream, produced⟩ := txdeltaNextWindow_end (show (txdelta source []).more = true from rfl) rfl
  obtain ⟨last, key, folded, -, -, appended⟩ := writeSvndiffStrings_first fresh []
  refine ⟨⟨stream, true, last.headerRead, last.strings, [], 0, 0⟩, ?_, rfl, rfl, appended.grows⟩
  simp only [deltifyWindows, deltifyWindow, produced, svndiffWrites, Bool.false_eq_true, if_false,
    folded]

/-- The delta of a short text is one window in one fresh string. -/
theorem deltifyWindows_single
    (fresh : ∀ n, strings.nextKey ≤ n → strings.records (some n) = none) (source : Bytes)
    {target : Bytes} (some : target ≠ []) (short : target.length ≤ streamChunkSize) :
    ∃ written window strKey svndiffLen data,
      deltifyWindows (target.length + 1) ⟨txdelta source target, false, 0, strings, [], 0, 0⟩ =
        .ok written ∧
      written.windows = [⟨strKey, svndiffLen, 0, target.length⟩] ∧
      Appended strings data (.some strKey) written.strings ∧ data.length < 2 ^ 64 ∧
      decodeWindow data = .some window ∧ window.Encodable ∧
      applyInstructions window ((source.drop window.sviewOffset).take window.sviewLen) =
        .some target := by
  obtain ⟨window, next, produced, reading, encodable, rest, -, -, -, -, applied⟩ :=
    txdeltaNextWindow_window (txdelta_reading source target) (Or.inr (by simp [txdelta, streamChunkSize]))
      some
  have whole : (txdelta source target).target.take streamChunkSize = target :=
    List.take_of_length_le short
  rw [whole] at applied
  have ended : next.target = [] := by
    rw [rest]
    exact List.drop_eq_nil_of_le short
  obtain ⟨stream, finished⟩ := txdeltaNextWindow_end reading.more ended
  obtain ⟨writes, encoded, small, decoded⟩ := encodeWindow_decodes encodable
  obtain ⟨last, key, folded, header, hasKey, appended⟩ := writeSvndiffStrings_first fresh writes
  have length := applyInstructions_length applied
  have positive : 0 < target.length := List.length_pos_iff.mpr some
  obtain ⟨fuel, enough⟩ : ∃ fuel, target.length = fuel + 1 := ⟨target.length - 1, by omega⟩
  rw [hasKey] at appended
  refine ⟨⟨stream, true, 4, last.strings, [⟨key, last.size, 0, target.length⟩],
    0 + target.length, 0 + last.size⟩, window, key, last.size, writes.flatten, ?_, rfl, appended,
    small, decoded, encodable, applied⟩
  simp only [enough, deltifyWindows, deltifyWindow, produced, svndiffWrites, Bool.false_eq_true,
    if_false, encoded, List.singleton_append, folded, finished, if_true, List.foldlM_nil, hasKey,
    header, ← length, Option.getD_some, List.nil_append]
  rfl

end Deltifying

section Effects

variable {store next : Store} {depth key : Nat}

theorem emptyStore_invariant : RepsInvariant emptyStore := by
  constructor <;> simp [emptyStore, emptyStrings]

theorem readRep_ok {rep : Rep} (read : readRep store key = .ok rep) :
    store.reps key = some rep := by
  unfold readRep at read
  split at read
  · next found =>
      cases read
      exact found
  · cases read

theorem RepsInvariant.in_range (invariant : RepsInvariant store) {rep : Rep}
    (found : store.reps key = some rep) : key < store.nextRep := by
  by_contra beyond
  rw [invariant.freshReps key (by omega)] at found
  cases found

/-- A new rep holds the appended bytes. -/
theorem RepsInvariant.writeNewRep_replaces (invariant : RepsInvariant store)
    {strings : StringsTable} {bytes : Bytes} {strKey : StrKey}
    (appended : Appended store.strings bytes (some strKey) strings) :
    Replaces store (writeNewRep { store with strings := strings } (fulltextRep true strKey)).2
        store.nextRep (some (fulltextRep true strKey)) ∧
      (writeNewRep { store with strings := strings } (fulltextRep true strKey)).2.strings.text
        strKey = some bytes :=
  invariant.replaces_fresh _ [] appended rfl (by simp [writeNewRep, writeRep]) (by simp)
    rfl (Nat.le_succ _) (Nat.lt_succ_self _) rfl

/-- A mutable rep is kept. Any other request makes a new fulltext with the requested contents. -/
theorem RepsInvariant.getMutableRep_replaces (invariant : RepsInvariant store) {rep : Option Nat}
    (got : getMutableRep store depth rep = .ok (key, next)) :
    (rep = some key ∧ next = store ∧ ∃ found, store.reps key = some found ∧ found.mutable = true) ∨
    (key = store.nextRep ∧ next.nextRep = store.nextRep + 1 ∧ ∃ strKey bytes,
      Replaces store next key (some (fulltextRep true strKey)) ∧
      next.strings.text strKey = some bytes ∧ (rep = none → bytes = []) ∧
      ∀ old, rep = some old → (∃ found, store.reps old = some found ∧ found.mutable = false) ∧
        ∀ text, Serves (repReadRange store depth) old text →
          repContentsSize store old = .ok text.length → bytes = text) := by
  cases rep with
  | none =>
      cases got
      have appended := (Appended.start_of_fresh invariant.freshStrings).append []
      obtain ⟨replaces, text⟩ := invariant.writeNewRep_replaces appended
      exact Or.inr ⟨rfl, rfl, _, [], replaces, text, fun _ => rfl, by simp⟩
  | some old =>
      rw [getMutableRep] at got
      cases read : readRep store old with
      | error error => rw [read] at got; cases got
      | ok skel =>
          rw [read] at got
          have found := readRep_ok read
          dsimp only at got
          split at got
          · next isMutable =>
              cases got
              exact Or.inl ⟨rfl, rfl, skel, found, isMutable⟩
          · next immutable =>
              right
              rw [Bool.not_eq_true] at immutable
              cases kind : skel.kind with
              | fulltext oldStr =>
                  rw [kind] at got
                  dsimp only at got
                  cases copied : stringCopy store.strings oldStr with
                  | error error => rw [copied] at got; cases got
                  | ok result =>
                      obtain ⟨newStr, strings⟩ := result
                      rw [copied] at got
                      cases got
                      obtain ⟨bytes, present, appended⟩ :=
                        stringCopy_appended invariant.freshStrings copied
                      obtain ⟨replaces, text⟩ := invariant.writeNewRep_replaces appended
                      refine ⟨rfl, rfl, newStr, bytes, replaces, text, by simp, ?_⟩
                      rintro _ ⟨⟩
                      refine ⟨⟨skel, found, immutable⟩, ?_⟩
                      intro whole serves _
                      cases depth with
                      | zero => cases serves 0 0
                      | succ depth =>
                          have direct := (fulltext_serves found kind present depth).1
                          exact serves_unique direct serves
              | delta windows =>
                  obtain ⟨-, entry, window, rfl, good⟩ := invariant.single old skel windows found kind
                  rw [kind, repContentsSize_delta found kind good] at got
                  dsimp only at got
                  cases copied : copyFulltext store depth old entry.size (entry.size + 1) 0 none
                      store.strings with
                  | error error => rw [copied] at got; cases got
                  | ok result =>
                      obtain ⟨newStr, strings⟩ := result
                      rw [copied] at got
                      cases got
                      obtain ⟨bytes, appended, present, exact⟩ := copyFulltext_appended entry.size
                        (entry.size + 1) (Appended.start_of_fresh invariant.freshStrings) copied
                      obtain ⟨strKey, rfl⟩ :=
                        Option.ne_none_iff_exists'.mp (present (Or.inr good.positive))
                      obtain ⟨replaces, text⟩ := invariant.writeNewRep_replaces appended
                      refine ⟨rfl, rfl, strKey, bytes, replaces, text, by simp, ?_⟩
                      rintro _ ⟨⟩
                      refine ⟨⟨skel, found, immutable⟩, ?_⟩
                      intro whole serves sized
                      rw [repContentsSize_delta found kind good] at sized
                      exact exact whole serves (Except.ok.inj sized).symm (by simp)

/-- A rep keeps some of its strings, and no other string changes. -/
theorem RepsInvariant.replaces_own (invariant : RepsInvariant store) {old : Rep} {rep : Option Rep}
    (found : store.reps key = some old) (reps : next.reps = Function.update store.reps key rep)
    (nextRep : next.nextRep = store.nextRep)
    (nextKey : next.strings.nextKey = store.strings.nextKey)
    (others : ∀ strKey, strKey ∉ old.kind.strKeys →
      next.strings.records strKey = store.strings.records strKey)
    (own : ∀ new, rep = some new → ∀ strKey ∈ new.kind.strKeys, strKey ∈ old.kind.strKeys) :
    Replaces store next key rep := by
  refine ⟨reps, nextRep.ge, fun _ => nextRep ▸ invariant.in_range found, nextKey.ge, ?_, ?_, ?_⟩
  · intro n later
    rw [others, invariant.freshStrings n (by omega)]
    intro mine
    obtain ⟨m, small, same⟩ := invariant.known key old found _ mine
    cases same
    omega
  · intro other otherRep distinct stored strKey member
    exact others strKey (invariant.unshared other key otherRep old stored found distinct strKey member)
  · intro new isNew strKey member
    exact Or.inr ⟨old, found, own new isNew strKey member⟩

/-- Only the strings of one rep change. -/
theorem RepsInvariant.replaces_text (invariant : RepsInvariant store) {old : Rep}
    {strings : StringsTable} (found : store.reps key = some old)
    (nextKey : strings.nextKey = store.strings.nextKey)
    (others : ∀ strKey, strKey ∉ old.kind.strKeys →
      strings.records strKey = store.strings.records strKey) :
    Replaces store { store with strings := strings } key (some old) := by
  have same : store.reps = Function.update store.reps key (some old) := by
    rw [← found, Function.update_eq_self]
  refine invariant.replaces_own found same rfl nextKey others ?_
  rintro _ ⟨⟩ _ member
  exact member

theorem RepsInvariant.makeRepImmutable_replaces (invariant : RepsInvariant store)
    (made : makeRepImmutable store key = .ok next) :
    ∃ rep, store.reps key = some rep ∧ next.strings = store.strings ∧
      next.nextRep = store.nextRep ∧ Replaces store next key (some { rep with mutable := false }) := by
  unfold makeRepImmutable at made
  split at made
  · cases made
  · next rep read =>
      have found := readRep_ok read
      cases made
      refine ⟨rep, found, by split <;> rfl, by split <;> rfl, ?_⟩
      split
      · exact invariant.replaces_own found rfl rfl rfl (fun _ _ => rfl) (by rintro _ ⟨⟩ _ member; exact member)
      · next immutable =>
          rw [Bool.not_eq_true] at immutable
          have same : { rep with mutable := false } = rep := by rw [← immutable]
          rw [same]
          exact invariant.replaces_text found rfl (fun _ _ => rfl)

theorem RepsInvariant.deleteRepIfMutable_replaces (invariant : RepsInvariant store)
    (deleted : deleteRepIfMutable store key = .ok next) :
    ∃ rep, store.reps key = some rep ∧ next.nextRep = store.nextRep ∧
      ((rep.mutable = false ∧ next = store) ∨ (rep.mutable = true ∧ Replaces store next key none)) := by
  unfold deleteRepIfMutable at deleted
  split at deleted
  · cases deleted
  · next rep read =>
      have found := readRep_ok read
      split at deleted
      · next isMutable =>
          split at deleted
          · cases deleted
          · next strings removed =>
              obtain ⟨nextKey, records⟩ := deleteStrings_eq _ removed
              simp only [deleteRep, found] at deleted
              cases deleted
              refine ⟨rep, found, rfl, Or.inr ⟨isMutable, ?_⟩⟩
              exact invariant.replaces_own found rfl rfl nextKey
                (fun strKey other => by rw [records, if_neg other]) (by simp)
      · next immutable =>
          cases deleted
          exact ⟨rep, found, rfl, Or.inl ⟨by simpa using immutable, rfl⟩⟩

/-- A write extends the text of a fulltext. -/
theorem RepsInvariant.repWrite_replaces (invariant : RepsInvariant store) {bytes : Bytes}
    (wrote : repWrite store key bytes = .ok next) :
    ∃ rep strKey, store.reps key = some rep ∧ rep.kind = .fulltext strKey ∧
      next.nextRep = store.nextRep ∧ Replaces store next key (some rep) ∧
      ∀ text, store.strings.text strKey = some text →
        next.strings.text strKey = some (text ++ bytes) := by
  unfold repWrite at wrote
  split at wrote
  · cases wrote
  · next rep read =>
      have found := readRep_ok read
      cases kind : rep.kind with
      | delta windows => rw [kind] at wrote; cases wrote
      | fulltext strKey =>
          rw [kind] at wrote
          cases wrote
          refine ⟨rep, strKey, found, kind, rfl, ?_, ?_⟩
          · refine invariant.replaces_text found rfl ?_
            intro other distinct
            apply Function.update_of_ne
            rw [kind] at distinct
            simpa [RepKind.strKeys] using distinct
          · intro text present
            unfold StringsTable.text at present
            obtain ⟨records, stored, rfl⟩ := Option.map_eq_some_iff.mp present
            simp [stringAppend, StringsTable.text, stored]

/-- Clearing leaves a mutable fulltext with an empty text. -/
theorem RepsInvariant.repContentsClear_replaces (invariant : RepsInvariant store)
    (cleared : repContentsClear store key = .ok next) :
    ∃ rep strKey, store.reps key = some rep ∧ rep.mutable = true ∧ rep.kind = .fulltext strKey ∧
      next.nextRep = store.nextRep ∧ Replaces store next key (some rep) ∧
      next.strings.text strKey = some [] := by
  unfold repContentsClear at cleared
  split at cleared
  · cases cleared
  · next rep read =>
      have found := readRep_ok read
      split at cleared
      · next isMutable =>
          cases kind : rep.kind with
          | delta windows =>
              have := (invariant.single key rep windows found kind).1
              rw [this] at isMutable
              cases isMutable
          | fulltext strKey =>
              obtain ⟨n, -, rfl⟩ := invariant.known key rep found strKey (by
                rw [kind]
                exact List.mem_singleton_self _)
              rw [kind] at cleared
              dsimp only at cleared
              unfold stringClear at cleared
              cases stored : store.strings.records (some n) with
              | none => rw [stored] at cleared; cases cleared
              | some records =>
                  rw [stored] at cleared
                  cases cleared
                  refine ⟨rep, some n, found, isMutable, kind, rfl, ?_, ?_⟩
                  · refine invariant.replaces_text found rfl ?_
                    intro other distinct
                    apply Function.update_of_ne
                    rw [kind] at distinct
                    simpa [RepKind.strKeys] using distinct
                  · simp [StringsTable.text]
      · cases cleared

/-- Strings that were appended may be deleted again. -/
theorem Grows.delete {before after strings : StringsTable} {keys : List StrKey}
    (grows : Grows before after) (deleted : deleteStrings after keys = .ok strings)
    (fresh : ∀ key ∈ keys, ∃ n, key = some n ∧ before.nextKey ≤ n) : Grows before strings := by
  obtain ⟨nextKey, records⟩ := deleteStrings_eq keys deleted
  refine ⟨by have := grows.nextKey; omega, ?_, ?_⟩
  · intro key older
    rw [records, if_neg, grows.kept key older]
    intro member
    obtain ⟨n, same, beyond⟩ := fresh key member
    have := older n same
    omega
  · intro n later
    rw [records, grows.fresh n (by omega), ite_self]

/-- An empty rep takes no storage. -/
theorem RepsInvariant.storedSize_empty (invariant : RepsInvariant store) {rep : Rep}
    {strings : StringsTable} (found : store.reps key = some rep)
    (sized : repContentsSize store key = .ok 0) (grows : Grows store.strings strings)
    {size : Nat} (stored : storedSize strings rep.kind.strKeys = .ok size) : size = 0 := by
  cases kind : rep.kind with
  | delta windows =>
      obtain ⟨-, entry, window, rfl, good⟩ := invariant.single key rep windows found kind
      rw [repContentsSize_delta found kind good] at sized
      have empty := Except.ok.inj sized
      have positive := good.positive
      omega
  | fulltext strKey =>
      have kept := invariant.grown_kept grows found (by
        rw [kind]
        exact List.mem_singleton_self strKey)
      rw [repContentsSize_fulltext found kind] at sized
      have same : stringSize strings strKey = .ok 0 := by
        rw [← sized]
        simp only [stringSize, locateKey, kept]
      simp only [kind, RepKind.strKeys, storedSize, same] at stored
      exact (Except.ok.inj stored).symm

/-- What a successful `svn_fs__rep_deltify` leaves behind when it has replaced the target. -/
structure Deltified (store next : Store) (depth target source : Nat) (sourceText targetText : Bytes)
    (entry : DeltaWindow) (window : TxdeltaWindow) : Prop where
  sourceServes : Serves (repReadRange store depth) source sourceText
  targetServes : Serves (repReadRange store depth) target targetText
  sized : repContentsSize store target = .ok targetText.length
  base : entry.base = source
  size : entry.size = targetText.length
  good : GoodEntry next.strings entry window
  applied : applyInstructions window
    ((sourceText.drop window.sviewOffset).take window.sviewLen) = some targetText
  replaces : Replaces store next target (some ⟨false, .delta [entry]⟩)

theorem RepsInvariant.hookDelta_empty (invariant : RepsInvariant store) {target source : Nat}
    {written : DeltifyState} (sized : repContentsSize store target = .ok 0)
    (windows : written.windows = []) (diffsize : written.diffsize = 0)
    (grows : Grows store.strings written.strings)
    (hooked : hookDelta store target source written = .ok next) :
    next.reps = store.reps ∧ next.nextRep = store.nextRep ∧ Grows store.strings next.strings := by
  unfold hookDelta at hooked
  split at hooked
  · cases hooked
  · next rep read =>
      split at hooked
      · cases hooked
      · next oldSize stored =>
          have empty := invariant.storedSize_empty (readRep_ok read) sized grows stored
          rw [if_pos (by omega), windows] at hooked
          cases hooked
          exact ⟨rfl, rfl, grows⟩

theorem RepsInvariant.hookDelta_single (invariant : RepsInvariant store) {target source : Nat}
    {written : DeltifyState} {strKey : StrKey} {svndiffLen : Nat} {data targetText : Bytes}
    {window : TxdeltaWindow}
    (windows : written.windows = [⟨strKey, svndiffLen, 0, targetText.length⟩])
    (appended : Appended store.strings data (some strKey) written.strings)
    (small : data.length < 2 ^ 64) (decoded : decodeWindow data = some window)
    (encodable : window.Encodable) (length : targetText.length = window.tviewLen)
    (nonempty : targetText ≠ [])
    (hooked : hookDelta store target source written = .ok next) :
    next.nextRep = store.nextRep ∧
      ((next.reps = store.reps ∧ Grows store.strings next.strings) ∨
        Replaces store next target
          (some ⟨false, .delta [⟨0, targetText.length, strKey, source⟩]⟩) ∧
        GoodEntry next.strings ⟨0, targetText.length, strKey, source⟩ window) := by
  unfold hookDelta at hooked
  split at hooked
  · cases hooked
  · next rep read =>
      have found := readRep_ok read
      split at hooked
      · cases hooked
      · split at hooked
        · -- the diff is not smaller than what it would replace
          split at hooked
          · cases hooked
          · next strings deleted =>
              cases hooked
              refine ⟨rfl, Or.inl ⟨rfl, appended.grows.delete deleted ?_⟩⟩
              intro key member
              simp only [windows, List.map_cons, List.map_nil, List.mem_singleton] at member
              subst member
              obtain ⟨n, same, beyond, -⟩ := appended.string _ rfl
              exact ⟨n, same, beyond⟩
        · split at hooked
          · cases hooked
          · next strings deleted =>
              obtain ⟨nextKey, records⟩ := deleteStrings_eq _ deleted
              rw [windows] at hooked
              cases hooked
              obtain ⟨replaces, text⟩ := invariant.replaces_fresh
                (writeRep { store with strings := strings } target
                  ⟨false, .delta [⟨0, targetText.length, strKey, source⟩]⟩)
                rep.kind.strKeys appended nextKey records (fun _ member => ⟨rep, found, member⟩) rfl
                le_rfl (invariant.in_range found) rfl
              have sum := advance_sum window.ops encodable.fits
              simp only [Nat.zero_add] at sum
              exact ⟨rfl, Or.inr ⟨replaces, rfl, List.length_pos_iff.mpr nonempty,
                length ▸ encodable.tview, ⟨data, text, small, decoded⟩, by rw [length, sum]⟩⟩

/-- The target is either left as it is or replaced by a delta that rebuilds its text. -/
theorem RepsInvariant.repDeltify_effect (invariant : RepsInvariant store) {target source : Nat}
    (ran : repDeltify store depth target source = .ok next) :
    next.nextRep = store.nextRep ∧
      ((next.reps = store.reps ∧ Grows store.strings next.strings) ∨
        ∃ sourceText targetText entry window,
          Deltified store next depth target source sourceText targetText entry window) := by
  unfold repDeltify at ran
  split at ran
  · cases ran
  · split at ran
    · cases ran
    · next size sized =>
        split at ran
        · cases ran
          exact ⟨rfl, Or.inl ⟨rfl, Grows.refl invariant.freshStrings⟩⟩
        · next short =>
            split at ran
            · next sourceText targetText sourcePulled targetPulled =>
                obtain ⟨sourceServes, -⟩ := invariant.stream_serves sourcePulled
                obtain ⟨targetServes, targetSized⟩ := invariant.stream_serves targetPulled
                rw [sized] at targetSized
                cases targetSized
                split at ran
                · cases ran
                · next written deltified =>
                    split at ran
                    · cases ran
                    · by_cases empty : targetText = []
                      · subst empty
                        obtain ⟨expected, produced, windows, diffsize, grows⟩ :=
                          deltifyWindows_empty invariant.freshStrings sourceText
                        rw [List.length_nil, produced] at deltified
                        cases deltified
                        obtain ⟨reps, nextRep, grown⟩ :=
                          invariant.hookDelta_empty sized windows diffsize grows ran
                        exact ⟨nextRep, Or.inl ⟨reps, grown⟩⟩
                      · obtain ⟨expected, window, strKey, svndiffLen, data, produced, windows,
                          appended, small, decoded, encodable, applied⟩ :=
                          deltifyWindows_single invariant.freshStrings sourceText empty (by omega)
                        rw [produced] at deltified
                        cases deltified
                        obtain ⟨nextRep, unchanged | ⟨replaces, good⟩⟩ :=
                          invariant.hookDelta_single windows appended small decoded encodable
                            (applyInstructions_length applied) empty ran
                        · exact ⟨nextRep, Or.inl unchanged⟩
                        · exact ⟨nextRep, Or.inr ⟨sourceText, targetText, _, window, sourceServes,
                            targetServes, sized, rfl, rfl, good, applied, replaces⟩⟩
            · cases ran
            · cases ran

/-- An undeltified rep is an immutable fulltext with the same text. -/
theorem RepsInvariant.repUndeltify_effect (invariant : RepsInvariant store)
    (ran : repUndeltify store depth key = .ok next) :
    next.nextRep = store.nextRep ∧
      (next = store ∨ ∃ text strKey, Serves (repReadRange store depth) key text ∧
        repContentsSize store key = .ok text.length ∧
        next.strings.text strKey = some text ∧
        Replaces store next key (some (fulltextRep false strKey))) := by
  unfold repUndeltify at ran
  split at ran
  · cases ran
  · next rep read =>
      have found := readRep_ok read
      cases kind : rep.kind with
      | fulltext strKey =>
          rw [kind] at ran
          cases ran
          exact ⟨rfl, Or.inl rfl⟩
      | delta windows =>
          obtain ⟨-, entry, window, rfl, good⟩ := invariant.single key rep windows found kind
          rw [kind] at ran
          dsimp only at ran
          split at ran
          · cases ran
          · next newStr strings wrote =>
              split at ran
              · cases ran
              · next left deleted =>
                  cases ran
                  obtain ⟨text, serves, sized⟩ := invariant.writeFulltext_serves _ (by
                    intro size resized
                    rw [repContentsSize_delta found kind good] at resized
                    cases resized
                    exact Or.inl good.positive) wrote
                  obtain ⟨whole, appended, present, exact⟩ := writeFulltext_appended _
                    (Appended.start_of_fresh invariant.freshStrings) wrote
                  obtain ⟨strKey, rfl⟩ := Option.ne_none_iff_exists'.mp present
                  have same := exact text serves (by simp)
                  subst same
                  obtain ⟨nextKey, records⟩ := deleteStrings_eq _ deleted
                  obtain ⟨replaces, stored⟩ := invariant.replaces_fresh
                    (writeRep { store with strings := left } key (fulltextRep false strKey))
                    [entry.strKey] appended nextKey records (by
                      intro other member
                      refine ⟨rep, found, ?_⟩
                      rw [kind]
                      exact member) rfl le_rfl (invariant.in_range found) rfl
                  exact ⟨rfl, Or.inr ⟨whole, strKey, serves, sized, stored, replaces⟩⟩

/-- Strings may grow without a change to any rep. -/
theorem RepsInvariant.grow (invariant : RepsInvariant store) (reps : next.reps = store.reps)
    (nextRep : next.nextRep = store.nextRep) (grows : Grows store.strings next.strings) :
    RepsInvariant next := by
  have nextKey := grows.nextKey
  refine ⟨grows.fresh, ?_, ?_, ?_, ?_⟩
  · rw [reps, nextRep]
    exact invariant.freshReps
  · intro key rep found strKey member
    rw [reps] at found
    obtain ⟨n, small, same⟩ := invariant.known key rep found strKey member
    exact ⟨n, by omega, same⟩
  · rw [reps]
    exact invariant.unshared
  · intro key rep windows found kind
    rw [reps] at found
    obtain ⟨immutable, entry, window, rfl, good⟩ := invariant.single key rep windows found kind
    refine ⟨immutable, entry, window, rfl, good.of_kept (invariant.grown_kept grows found ?_)⟩
    rw [kind]
    exact List.mem_singleton_self _

/-- A fulltext may replace any rep. -/
theorem RepsInvariant.replace_fulltext (invariant : RepsInvariant store) {rep : Rep}
    {strKey : StrKey} (kind : rep.kind = .fulltext strKey)
    (replaces : Replaces store next key (some rep)) : RepsInvariant next := by
  apply invariant.replace replaces
  rintro found windows ⟨⟩ isDelta
  rw [kind] at isDelta
  cases isDelta

/-- Every operation on representations keeps the invariant. -/
theorem RepsInvariant.runRepOp (invariant : RepsInvariant store) {op : RepOp}
    (ran : runRepOp store depth op = .ok next) : RepsInvariant next := by
  cases op with
  | getMutable rep =>
      simp only [Fs.runRepOp] at ran
      cases got : getMutableRep store depth rep with
      | error error => rw [got] at ran; cases ran
      | ok result =>
          rw [got] at ran
          cases ran
          rcases invariant.getMutableRep_replaces got with
            ⟨-, same, -⟩ | ⟨-, -, strKey, bytes, replaces, -⟩
          · rw [same]
            exact invariant
          · exact invariant.replace_fulltext rfl replaces
  | makeImmutable rep =>
      obtain ⟨old, found, strings, -, replaces⟩ := invariant.makeRepImmutable_replaces ran
      apply invariant.replace replaces
      rintro _ windows ⟨⟩ kind
      rw [strings]
      exact ⟨rfl, (invariant.single rep old windows found kind).2⟩
  | deleteIfMutable rep =>
      obtain ⟨old, found, -, ⟨-, same⟩ | ⟨-, replaces⟩⟩ := invariant.deleteRepIfMutable_replaces ran
      · rw [same]
        exact invariant
      · exact invariant.replace replaces (by simp)
  | write rep bytes =>
      obtain ⟨old, strKey, -, kind, -, replaces, -⟩ := invariant.repWrite_replaces ran
      exact invariant.replace_fulltext kind replaces
  | clear rep =>
      obtain ⟨old, strKey, -, -, kind, -, replaces, -⟩ := invariant.repContentsClear_replaces ran
      exact invariant.replace_fulltext kind replaces
  | deltify target source =>
      obtain ⟨nextRep, ⟨reps, grows⟩ | ⟨sourceText, targetText, entry, window, deltified⟩⟩ :=
        invariant.repDeltify_effect ran
      · exact invariant.grow reps nextRep grows
      · apply invariant.replace deltified.replaces
        rintro _ windows ⟨⟩ ⟨⟩
        exact ⟨rfl, entry, window, rfl, deltified.good⟩
  | undeltify rep =>
      obtain ⟨-, same | ⟨text, strKey, -, -, -, replaces⟩⟩ := invariant.repUndeltify_effect ran
      · rw [same]
        exact invariant
      · exact invariant.replace_fulltext rfl replaces

/-- The invariant holds after every run of operations. -/
theorem RepsReachable.invariant (reachable : RepsReachable store) : RepsInvariant store := by
  induction reachable with
  | empty => exact emptyStore_invariant
  | step _ ran ih => exact ih.runRepOp ran

end Effects

end Subversion.Fs
