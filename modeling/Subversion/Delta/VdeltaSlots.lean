/-
This file models the vdelta hash table as arrays of pointers and proves that no read leaves them.
-/

import Subversion.Lib.Chains
import Subversion.Delta.TextDelta

namespace Subversion.Delta.Slots

open Chains

/-- An `int` holds the values below 2^31. A larger value is a failure here. -/
def toInt (value : Nat) : Option Nat := if value < 2 ^ 31 then some value else none

/-- A pointer to a slot is the slot's index. A slot is its `next` pointer. -/
structure HashTable where
  buckets : List (Option Nat)
  slots : List (Option Nat)

def createHashTable (numSlots : Nat) : Option HashTable := do
  let numBuckets ← toInt (numSlots / 3 ||| 1)
  some ⟨List.replicate numBuckets none, List.replicate numSlots none⟩

/-- Each byte of the key is read from the buffer. -/
def getBucket (data : Bytes) (table : HashTable) (key : Nat) : Option Nat := do
  let hash ← [0, 1, 2, 3].foldlM (fun hash offset => do
    let byte ← data[key + offset]?
    some ((hash * 127 + signedChar byte) % 2 ^ 32)) 0
  some (hash % table.buckets.length)

/-- The assertion fails when the slot already has a next slot. -/
def storeMapping (data : Bytes) (table : HashTable) (index : Nat) : Option HashTable := do
  let bucket ← getBucket data table index
  let next ← table.slots[index]?
  if next = none then
    let head ← table.buckets[bucket]?
    some ⟨table.buckets.set bucket (some index), table.slots.set index head⟩
  else none

/-- The loop compares both pointers' bytes while `remaining` bytes are left before the end. -/
def matchEnd (data : Bytes) : Nat → Nat → Nat → Option Nat
  | 0, _, here => some here
  | remaining + 1, candidate, here => do
      let first ← data[candidate]?
      let second ← data[here]?
      if first = second then matchEnd data remaining (candidate + 1) (here + 1) else some here

def findMatchLen (data : Bytes) (candidate start stop : Nat) : Option Nat := do
  let here ← matchEnd data (stop - start) candidate start
  toInt (here - start)

def tryCandidate (data : Bytes) (start here stop key : Nat) (current : Match × Bool)
    (slot : Nat) : Option (Match × Bool) :=
  if slot < key - here then some current
  else do
    let candidate := slot - (key - here)
    let extent ← findMatchLen data candidate here stop
    let length := if candidate < start ∧ start < candidate + extent then start - candidate else extent
    if vdKeySize ≤ length ∧ current.1.length < length then some (⟨candidate, length⟩, true)
    else some current

/-- The chain is given one step for each slot, and the search one round for each byte. -/
def searchMatch (data : Bytes) (table : HashTable) (start here stop : Nat) :
    Nat → Nat → Match → Option Match
  | 0, _, _ => none
  | fuel + 1, key, current => do
      let bucket ← getBucket data table key
      let head ← table.buckets[bucket]?
      let found ← walk table.slots (tryCandidate data start here stop key) table.slots.length head
        (current, false)
      if found.2 then
        let key := here + found.1.length - (vdKeySize - 1)
        if key + vdKeySize ≤ stop then searchMatch data table start here stop fuel key found.1
        else some found.1
      else some found.1

def storeTail (data : Bytes) (table : HashTable) (here stop : Nat) : Option HashTable :=
  if here + vdKeySize ≤ stop then
    [here - 3, here - 2, here - 1].foldlM (storeMapping data) table
  else some table

def vdelta (data : Bytes) (start stop : Nat) (outputflag : Bool) :
    Nat → HashTable → BuildOps → Nat → Option Nat → Option (HashTable × BuildOps)
  | 0, _, _, _, _ => none
  | fuel + 1, table, baton, here, insertFrom =>
      if stop < here + vdKeySize then
        some (table, if outputflag then emitTail data here stop insertFrom baton else baton)
      else do
        let found ← searchMatch data table start here stop (stop - here + 1) here ⟨0, 0⟩
        if found.length < vdKeySize then
          let table ← storeMapping data table here
          vdelta data start stop outputflag fuel table baton (here + 1) (some (insertFrom.getD here))
        else
          let table ← storeTail data table (here + found.length) stop
          vdelta data start stop outputflag fuel table
            (if outputflag then emitCopy data start here insertFrom found baton else baton)
            (here + found.length) (if outputflag then none else insertFrom)

/-- Both passes work on one buffer, which holds the source and then the target. -/
def txdeltaVdelta (data : Bytes) (sourceLen targetLen : Nat) : Option BuildOps := do
  let table ← createHashTable (sourceLen + targetLen)
  let (table, baton) ← vdelta data 0 sourceLen false (sourceLen + 1) table ⟨[], []⟩ 0 none
  let (_, baton) ← vdelta data sourceLen (sourceLen + targetLen) true (targetLen + 1) table baton
    sourceLen none
  some baton

/-- The pointers form the chains, and only positions before the bound are mapped. -/
structure Mirrors (table : HashTable) (chains : Delta.HashTable) (numSlots bound : Nat) : Prop where
  buckets : table.buckets.length = chains.numBuckets
  slots : table.slots.length = numSlots
  positive : 0 < chains.numBuckets
  linked : ∀ bucket < chains.numBuckets, ∃ head, table.buckets[bucket]? = some head ∧
    Linked table.slots head (chains.buckets bucket)
  decreasing : ∀ bucket, (chains.buckets bucket).Pairwise (· > ·)
  below : chains.Below bound
  free : ∀ index, bound ≤ index → index < numSlots → table.slots[index]? = some none

theorem createHashTable_mirrors {numSlots : Nat} (sized : numSlots < 2 ^ 31) :
    ∃ table, createHashTable numSlots = some table ∧
      Mirrors table (Delta.createHashTable numSlots) numSlots 0 := by
  have odd : 0 < numSlots / 3 ||| 1 := lt_of_lt_of_le Nat.one_pos Nat.right_le_or
  have small : numSlots / 3 ||| 1 < 2 ^ 31 := Nat.or_lt_two_pow (by omega) (by norm_num)
  refine ⟨⟨List.replicate (numSlots / 3 ||| 1) none, List.replicate numSlots none⟩, ?_, ?_⟩
  · simp only [createHashTable, toInt, if_pos small, Option.bind_eq_bind, Option.bind_some]
  · exact {
      buckets := List.length_replicate
      slots := List.length_replicate
      positive := odd
      linked := fun bucket inside => ⟨none, List.getElem?_replicate_of_lt inside, rfl⟩
      decreasing := fun _ => List.Pairwise.nil
      below := createHashTable_below numSlots 0
      free := fun index _ inside => List.getElem?_replicate_of_lt inside }

variable {data : Bytes} {table : HashTable} {chains : Delta.HashTable} {numSlots bound : Nat}

/-- A key inside the buffer has the bucket that its four bytes give. -/
theorem getBucket_mirrors (mirrors : Mirrors table chains numSlots bound) {key : Nat}
    (inside : key + vdKeySize ≤ data.length) :
    getBucket data table key = some (Delta.getBucket chains (data.drop key)) := by
  simp only [vdKeySize] at inside
  have read (offset : Nat) (near : offset < 4) :
      data[key + offset]? = some (data.get ⟨key + offset, by omega⟩) :=
    List.getElem?_eq_getElem (by omega)
  have bytes : (data.drop key).take vdKeySize = [data.get ⟨key + 0, by omega⟩,
      data.get ⟨key + 1, by omega⟩, data.get ⟨key + 2, by omega⟩, data.get ⟨key + 3, by omega⟩] := by
    apply List.ext_getElem
    · simp [vdKeySize]
      omega
    · intro index first second
      simp only [List.length_cons, List.length_nil] at second
      have : index = 0 ∨ index = 1 ∨ index = 2 ∨ index = 3 := by omega
      rcases this with rfl | rfl | rfl | rfl <;> simp
  unfold getBucket Delta.getBucket
  rw [bytes, mirrors.buckets]
  simp only [List.foldlM_cons, List.foldlM_nil, read 0 (by omega), read 1 (by omega),
    read 2 (by omega), read 3 (by omega), Option.bind_eq_bind, Option.bind_some, Option.pure_def,
    List.foldl_cons, List.foldl_nil]

theorem getBucket_lt (mirrors : Mirrors table chains numSlots bound) (key : Bytes) :
    Delta.getBucket chains key < chains.numBuckets := Nat.mod_lt _ mirrors.positive

/-- A fresh position is stored in both tables, and the assertion holds. -/
theorem storeMapping_mirrors (data : Bytes) (mirrors : Mirrors table chains numSlots bound)
    (index : Nat)
    (inside : index + vdKeySize ≤ data.length) (fresh : bound ≤ index) (room : index < numSlots) :
    ∃ next mapped, storeMapping data table index = some next ∧
      Delta.storeMapping data chains index = some mapped ∧
      Mirrors next mapped numSlots (index + 1) := by
  obtain ⟨mapped, stored, below⟩ := storeMapping_below data index mirrors.below fresh
  have unmapped (bucket : Nat) : index ∉ chains.buckets bucket := by
    intro member
    have := mirrors.below bucket index member
    omega
  generalize isBucket : Delta.getBucket chains (data.drop index) = bucket at *
  have known : bucket < chains.numBuckets := isBucket ▸ getBucket_lt mirrors _
  obtain ⟨head, isHead, linked⟩ := mirrors.linked bucket known
  refine ⟨⟨table.buckets.set bucket (some index), table.slots.set index head⟩, mapped, ?_, stored, ?_⟩
  · simp only [storeMapping, getBucket_mirrors mirrors inside, isBucket, Option.bind_eq_bind,
      Option.bind_some, mirrors.free index fresh room, isHead, if_pos]
  · have isMapped : mapped = { chains with
        buckets := Function.update chains.buckets bucket (index :: chains.buckets bucket) } := by
      simp only [Delta.storeMapping, isBucket] at stored
      split at stored
      · exact (Option.some.inj stored).symm
      · cases stored
    subst isMapped
    exact {
      buckets := by rw [List.length_set]; exact mirrors.buckets
      slots := by rw [List.length_set]; exact mirrors.slots
      positive := mirrors.positive
      linked := by
        intro other less
        by_cases same : other = bucket
        · subst same
          refine ⟨some index, ?_, ?_⟩
          · rw [List.getElem?_set_self (by rw [mirrors.buckets]; exact less)]
          · dsimp only
            rw [Function.update_self]
            exact linked_push linked (by rw [mirrors.slots]; exact room) (unmapped other)
        · obtain ⟨otherHead, isOther, otherLinked⟩ := mirrors.linked other less
          refine ⟨otherHead, ?_, ?_⟩
          · rw [List.getElem?_set_ne (Ne.symm same)]
            exact isOther
          · dsimp only
            rw [Function.update_of_ne same]
            exact linked_set head otherLinked (unmapped other)
      decreasing := by
        intro other
        by_cases same : other = bucket
        · subst same
          dsimp only
          rw [Function.update_self, List.pairwise_cons]
          exact ⟨fun slot member => lt_of_lt_of_le (mirrors.below other slot member) fresh,
            mirrors.decreasing other⟩
        · dsimp only
          rw [Function.update_of_ne same]
          exact mirrors.decreasing other
      below := below
      free := by
        intro other after less
        rw [List.getElem?_set_ne (by omega)]
        exact mirrors.free other (by omega) less }

theorem Mirrors.mono {larger : Nat} (mirrors : Mirrors table chains numSlots bound)
    (le : bound ≤ larger) : Mirrors table chains numSlots larger :=
  { mirrors with
    below := mirrors.below.mono le
    free := fun index after => mirrors.free index (le_trans le after) }

/-- The three stored positions end before the current one, and a full key follows them. -/
theorem storeTail_mirrors (mirrors : Mirrors table chains numSlots bound) (here : Nat) {stop : Nat}
    (advanced : bound + vdKeySize ≤ here) (inside : stop ≤ data.length) (room : stop ≤ numSlots) :
    ∃ next mapped, storeTail data table here stop = some next ∧
      Delta.storeTail data chains here stop = some mapped ∧ Mirrors next mapped numSlots here := by
  simp only [vdKeySize] at advanced
  unfold storeTail Delta.storeTail
  split
  · next short =>
      simp only [vdKeySize] at short
      obtain ⟨table, chains, storedFirst, mappedFirst, mirrors⟩ :=
        storeMapping_mirrors data mirrors (here - 3) (by simp only [vdKeySize]; omega) (by omega) (by omega)
      obtain ⟨table, chains, storedSecond, mappedSecond, mirrors⟩ :=
        storeMapping_mirrors data mirrors (here - 2) (by simp only [vdKeySize]; omega) (by omega) (by omega)
      obtain ⟨table, chains, storedThird, mappedThird, mirrors⟩ :=
        storeMapping_mirrors data mirrors (here - 1) (by simp only [vdKeySize]; omega) (by omega) (by omega)
      exact ⟨table, chains, by simp [storedFirst, storedSecond, storedThird],
        by simp [mappedFirst, mappedSecond, mappedThird], mirrors.mono (by omega)⟩
  · exact ⟨table, chains, rfl, rfl, mirrors.mono (by omega)⟩

/-- Both pointers stay inside the buffer, since the match starts before the position. -/
theorem matchEnd_eq (remaining candidate here : Nat) (before : candidate ≤ here)
    (inside : here + remaining ≤ data.length) :
    matchEnd data remaining candidate here =
      some (here + commonPrefix (data.drop candidate) ((data.take (here + remaining)).drop here)) := by
  induction remaining generalizing candidate here with
  | zero =>
      rw [matchEnd, Nat.add_zero, List.drop_eq_nil_of_le (List.length_take_le _ _)]
      cases data.drop candidate <;> simp [commonPrefix]
  | succ remaining ih =>
      have known : here < data.length := by omega
      have earlier : candidate < data.length := by omega
      have later : here < (data.take (here + (remaining + 1))).length := by
        simp only [List.length_take]
        omega
      rw [matchEnd, List.getElem?_eq_getElem known, List.getElem?_eq_getElem earlier,
        List.drop_eq_getElem_cons earlier, List.drop_eq_getElem_cons later, List.getElem_take,
        commonPrefix]
      simp only [Option.bind_eq_bind, Option.bind_some]
      split
      · rw [ih (candidate + 1) (here + 1) (by omega) (by omega),
          show here + 1 + remaining = here + (remaining + 1) by omega]
        congr 1
        omega
      · rfl

theorem findMatchLen_eq {candidate here stop : Nat} (before : candidate ≤ here)
    (inside : here ≤ stop) (buffer : stop ≤ data.length) (sized : data.length < 2 ^ 31) :
    findMatchLen data candidate here stop =
      some (Delta.findMatchLen data candidate here stop) := by
  have bound := (findMatchLen_spec data candidate here stop inside).1
  unfold findMatchLen
  rw [matchEnd_eq (stop - here) candidate here before (by omega),
    show here + (stop - here) = stop by omega]
  change toInt (here + Delta.findMatchLen data candidate here stop - here) = _
  rw [Nat.add_sub_cancel_left, toInt, if_pos (by omega)]

theorem tryCandidate_eq {start here stop key slot : Nat} (current : Match × Bool)
    (earlier : slot < here) (inside : here ≤ stop) (buffer : stop ≤ data.length)
    (sized : data.length < 2 ^ 31) :
    tryCandidate data start here stop key current slot =
      some (Delta.tryCandidate data start here stop key current slot) := by
  unfold tryCandidate Delta.tryCandidate
  split
  · rfl
  · dsimp only
    rw [findMatchLen_eq (by omega) inside buffer sized]
    simp only [Option.bind_eq_bind, Option.bind_some]
    split
    · split <;> rfl
    · split <;> rfl

/-- A candidate only lengthens the current match, and reports it as progress. -/
theorem tryCandidate_progress (data : Bytes) (start : Nat) {here stop : Nat} (key : Nat)
    (current : Match × Bool) (slot : Nat) (inside : here ≤ stop)
    (fits : here + current.1.length ≤ stop) :
    let found := Delta.tryCandidate data start here stop key current slot
    here + found.1.length ≤ stop ∧ current.1.length ≤ found.1.length ∧
      (found.2 = true → current.2 = true ∨ current.1.length < found.1.length) := by
  dsimp only
  unfold Delta.tryCandidate
  split
  · exact ⟨fits, le_rfl, Or.inl⟩
  · have extent := (findMatchLen_spec data (slot - (key - here)) here stop inside).1
    dsimp only
    split
    · split
      · exact ⟨by dsimp only; omega, by dsimp only; omega, fun _ => Or.inr (by dsimp only; omega)⟩
      · exact ⟨fits, le_rfl, Or.inl⟩
    · split
      · exact ⟨extent, by dsimp only; omega, fun _ => Or.inr (by dsimp only; omega)⟩
      · exact ⟨fits, le_rfl, Or.inl⟩

theorem chain_progress (data : Bytes) (start : Nat) {here stop : Nat} (key : Nat) (chain : List Nat)
    (current : Match × Bool) (inside : here ≤ stop) (fits : here + current.1.length ≤ stop) :
    let found := chain.foldl (Delta.tryCandidate data start here stop key) current
    here + found.1.length ≤ stop ∧ current.1.length ≤ found.1.length ∧
      (found.2 = true → current.2 = true ∨ current.1.length < found.1.length) := by
  induction chain generalizing current with
  | nil => exact ⟨fits, le_rfl, Or.inl⟩
  | cons slot chain ih =>
      obtain ⟨stepFits, stepLonger, stepProgress⟩ :=
        tryCandidate_progress data start key current slot inside fits
      obtain ⟨laterFits, laterLonger, laterProgress⟩ := ih _ stepFits
      refine ⟨laterFits, le_trans stepLonger laterLonger, fun progressed => ?_⟩
      rcases laterProgress progressed with earlier | longer
      · rcases stepProgress earlier with before | longer
        · exact Or.inl before
        · exact Or.inr (lt_of_lt_of_le longer laterLonger)
      · exact Or.inr (lt_of_le_of_lt stepLonger longer)

/-- Every round of the search lengthens the match, so the search ends. -/
theorem searchMatch_eq (start : Nat) {here stop : Nat} (mirrors : Mirrors table chains numSlots here)
    (inside : here ≤ stop) (buffer : stop ≤ data.length) (sized : data.length < 2 ^ 31)
    (room : here ≤ numSlots) (fuel key : Nat) (current : Match) (keyInside : key + vdKeySize ≤ stop)
    (fits : here + current.length ≤ stop) (enough : stop - here - current.length < fuel) :
    searchMatch data table start here stop fuel key current =
      some (Delta.searchMatch data chains start here stop fuel key current) := by
  induction fuel generalizing key current with
  | zero => omega
  | succ fuel ih =>
      generalize isBucket : Delta.getBucket chains (data.drop key) = bucket
      have known : bucket < chains.numBuckets := isBucket ▸ getBucket_lt mirrors _
      obtain ⟨head, isHead, linked⟩ := mirrors.linked bucket known
      have short : (chains.buckets bucket).length ≤ table.slots.length := by
        rw [mirrors.slots]
        exact le_trans (length_le_of_decreasing (mirrors.decreasing bucket) (mirrors.below bucket)) room
      have walked := walk_linked (tryCandidate data start here stop key) linked
        (fun state slot member =>
          tryCandidate_eq state (mirrors.below bucket slot member) inside buffer sized)
        table.slots.length short (current, false)
      obtain ⟨foundFits, -, progress⟩ :=
        chain_progress data start key (chains.buckets bucket) (current, false) inside fits
      rw [searchMatch, Delta.searchMatch, getBucket_mirrors mirrors (le_trans keyInside buffer),
        isBucket]
      simp only [Option.bind_eq_bind, Option.bind_some, isHead, walked]
      split
      · next progressed =>
          have longer := (progress progressed).resolve_left (by simp)
          dsimp only at longer
          split
          · next more => exact ih _ _ more foundFits (by omega)
          · rfl
      · rfl

/-- Both models take the same steps, so they emit the same instructions. -/
theorem vdelta_eq {start stop : Nat} {outputflag : Bool} (buffer : stop ≤ data.length)
    (sized : data.length < 2 ^ 31) (room : stop ≤ numSlots) (fuel : Nat) {here : Nat}
    (baton : BuildOps) (insertFrom : Option Nat) (mirrors : Mirrors table chains numSlots here)
    (inside : here ≤ stop) {mapped : Delta.HashTable} {final : BuildOps}
    (ran : Delta.vdelta data start stop outputflag fuel chains baton here insertFrom =
      some (mapped, final)) :
    ∃ next, vdelta data start stop outputflag fuel table baton here insertFrom =
      some (next, final) ∧ Mirrors next mapped numSlots stop := by
  induction fuel generalizing table chains baton here insertFrom with
  | zero => cases ran
  | succ fuel ih =>
      rw [Delta.vdelta] at ran
      rw [vdelta]
      split at ran
      · next short =>
          cases ran
          exact ⟨table, if_pos short, mirrors.mono inside⟩
      · next long =>
          have keyInside : here + vdKeySize ≤ stop := by omega
          have searched := searchMatch_eq start mirrors inside buffer sized (by omega)
            (stop - here + 1) here ⟨0, 0⟩ keyInside inside (by omega)
          have sound : (Delta.searchMatch data chains start here stop (stop - here + 1) here
              ⟨0, 0⟩).Sound data start here stop :=
            searchMatch_sound inside mirrors.below _ _ _ (fun positive => absurd positive (by simp))
          rw [if_neg long, searched]
          generalize Delta.searchMatch data chains start here stop (stop - here + 1) here ⟨0, 0⟩ =
            found at ran sound
          simp only [Option.bind_eq_bind, Option.bind_some] at ran ⊢
          split at ran
          · next unmatched =>
              obtain ⟨table, chains, stored, mappedNext, mirrors⟩ :=
                storeMapping_mirrors data mirrors here (le_trans keyInside buffer) le_rfl
                  (by simp only [vdKeySize] at keyInside; omega)
              rw [mappedNext] at ran
              simp only [if_pos unmatched, stored, Option.bind_some]
              exact ih _ _ mirrors (by simp only [vdKeySize] at keyInside; omega) ran
          · next matched =>
              have large : vdKeySize ≤ found.length := by omega
              have reaches := (sound (lt_of_lt_of_le (by decide) large)).2.1
              obtain ⟨table, chains, stored, mappedNext, mirrors⟩ :=
                storeTail_mirrors mirrors (here + found.length) (by omega) buffer room
              rw [mappedNext] at ran
              simp only [if_neg matched, stored, Option.bind_some]
              exact ih _ _ mirrors reaches ran

/-- The arrays of pointers compute what the chains of positions do. -/
theorem txdeltaVdelta_eq {source target : Bytes} (sized : source.length + target.length < 2 ^ 31) :
    txdeltaVdelta (source ++ target) source.length target.length =
      Delta.txdeltaVdelta (source ++ target) source.length target.length := by
  have length : (source ++ target).length = source.length + target.length := List.length_append
  obtain ⟨table, created, mirrors⟩ := createHashTable_mirrors sized
  obtain ⟨baton, ran, -⟩ := txdeltaVdelta_emits source target
  rw [ran]
  unfold Delta.txdeltaVdelta at ran
  split at ran
  · cases ran
  · next chains first sourceRan =>
      obtain ⟨⟨mapped, last⟩, targetRan, rfl⟩ := Option.map_eq_some_iff.mp ran
      obtain ⟨table, sourcePass, mirrors⟩ := vdelta_eq (by omega) (by omega) (by omega) _ _ _ mirrors
        (Nat.zero_le _) sourceRan
      obtain ⟨table, targetPass, -⟩ := vdelta_eq (by omega) (by omega) le_rfl _ _ _ mirrors
        (by omega) targetRan
      simp only [txdeltaVdelta, created, sourcePass, targetPass, Option.bind_eq_bind,
        Option.bind_some]

/-- The search stays inside the buffer, ends, and its instructions rebuild the target. -/
theorem txdeltaVdelta_rebuilds (source target : Bytes)
    (sized : source.length + target.length < 2 ^ 31) :
    ∃ baton, txdeltaVdelta (source ++ target) source.length target.length = some baton ∧
      (∀ op ∈ baton.ops, 0 < op.length) ∧
      baton.ops.foldlM (advance source.length) ⟨0, 0⟩ =
        some ⟨target.length, baton.newData.length⟩ ∧
      applyInstructions { makeWindow baton with
        sviewLen := source.length
        tviewLen := target.length } source = some target := by
  obtain ⟨baton, ran, emitted⟩ := txdeltaVdelta_emits source target
  exact ⟨baton, by rw [txdeltaVdelta_eq sized, ran], emitted.positive, emitted.fits,
    emitted_applies emitted 0 (by omega) (by omega)⟩

theorem txdeltaVdelta_rebuilds_overlap :
    ∃ baton, txdeltaVdelta [1, 2, 3, 4, 5, 5, 5, 5, 5, 5, 1, 2, 3, 4] 4 10 = some baton ∧
      (∀ op ∈ baton.ops, 0 < op.length) ∧
      baton.ops.foldlM (advance 4) ⟨0, 0⟩ = some ⟨10, baton.newData.length⟩ ∧
      applyInstructions { makeWindow baton with
        sviewLen := 4
        tviewLen := 10 } [1, 2, 3, 4] = some [5, 5, 5, 5, 5, 5, 1, 2, 3, 4] :=
  txdeltaVdelta_rebuilds [1, 2, 3, 4] [5, 5, 5, 5, 5, 5, 1, 2, 3, 4] (by decide)

end Subversion.Delta.Slots
