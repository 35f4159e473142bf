/-
This file models the vdelta generator and proves that its instructions rebuild the target.
-/

import Mathlib.Data.List.TakeWhile
import Subversion.Delta.Window

namespace Subversion.Delta

open SelfCopy

/-- Size of a vdelta hash key. -/
def vdKeySize : Nat := 4

/-- Each chain lists its slots from the newest mapping to the oldest. -/
structure HashTable where
  numBuckets : Nat
  buckets : Nat → List Nat

def createHashTable (numSlots : Nat) : HashTable := ⟨numSlots / 3 ||| 1, fun _ => []⟩

/-- A `char` is signed. It is extended to 32 bits before it is added to the hash. -/
def signedChar (byte : UInt8) : Nat :=
  if byte.toNat < 128 then byte.toNat else byte.toNat + (2 ^ 32 - 256)

def getBucket (table : HashTable) (key : Bytes) : Nat :=
  (key.take vdKeySize).foldl (fun hash byte => (hash * 127 + signedChar byte) % 2 ^ 32) 0 %
    table.numBuckets

/-- The `next` field of a slot in its chain. -/
def slotNext (chain : List Nat) (index : Nat) : Option Nat :=
  (chain.dropWhile (· ≠ index))[1]?

/-- The key of a mapping is always the data at the stored index. -/
def storeMapping (data : Bytes) (table : HashTable) (index : Nat) : Option HashTable :=
  let bucket := getBucket table (data.drop index)
  if slotNext (table.buckets bucket) index = none then
    some { table with
      buckets := Function.update table.buckets bucket (index :: table.buckets bucket) }
  else none

def commonPrefix : Bytes → Bytes → Nat
  | first :: firsts, second :: seconds =>
      if first = second then commonPrefix firsts seconds + 1 else 0
  | _, _ => 0

def findMatchLen (data : Bytes) (candidate start stop : Nat) : Nat :=
  commonPrefix (data.drop candidate) ((data.take stop).drop start)

/-- The length is zero while there is no current match. -/
structure Match where
  position : Nat
  length : Nat

/-- One slot of the chain replaces the current match when its match is longer. -/
def tryCandidate (data : Bytes) (start here stop key : Nat) (current : Match × Bool)
    (slot : Nat) : Match × Bool :=
  if slot < key - here then current
  else
    let candidate := slot - (key - here)
    let extent := findMatchLen data candidate here stop
    let length := if candidate < start ∧ start < candidate + extent then start - candidate else extent
    if vdKeySize ≤ length ∧ current.1.length < length then (⟨candidate, length⟩, true) else current

/-- The search looks up the end of the current match until no candidate extends it. -/
def searchMatch (data : Bytes) (table : HashTable) (start here stop : Nat) :
    Nat → Nat → Match → Match
  | 0, _, current => current
  | fuel + 1, key, current =>
      let found := (table.buckets (getBucket table (data.drop key))).foldl
        (tryCandidate data start here stop key) (current, false)
      if found.2 then
        let key := here + found.1.length - (vdKeySize - 1)
        if key + vdKeySize ≤ stop then searchMatch data table start here stop fuel key found.1
        else found.1
      else found.1

structure BuildOps where
  ops : List TxdeltaOp
  newData : Bytes

/-- A new-data instruction ignores `offset` and copies its bytes into the window. -/
def txdeltaInsertOp (baton : BuildOps) (opcode : DeltaAction) (offset length : Nat)
    (newData : Bytes) : BuildOps :=
  match opcode with
  | .source | .target => { baton with ops := baton.ops ++ [⟨opcode, offset, length⟩] }
  | .new =>
      { ops := baton.ops ++ [⟨.new, baton.newData.length, length⟩]
        newData := baton.newData ++ newData.take length }

/-- A pending insertion is committed as new data. -/
def commitInsert (data : Bytes) (here : Nat) (insertFrom : Option Nat) (baton : BuildOps) : BuildOps :=
  match insertFrom with
  | some position => txdeltaInsertOp baton .new 0 (here - position) (data.drop position)
  | none => baton

def emitCopy (data : Bytes) (start here : Nat) (insertFrom : Option Nat) (found : Match)
    (baton : BuildOps) : BuildOps :=
  let pending := commitInsert data here insertFrom baton
  if found.position < start then
    txdeltaInsertOp pending .source found.position found.length []
  else
    txdeltaInsertOp pending .target (found.position - start) found.length []

/-- The last few bytes are inserted as new data. -/
def emitTail (data : Bytes) (here stop : Nat) (insertFrom : Option Nat) (baton : BuildOps) :
    BuildOps :=
  let position := insertFrom.getD here
  if position < stop then
    txdeltaInsertOp baton .new 0 (stop - position) (data.drop position)
  else baton

/-- The last three positions of a match are mapped when a full key still follows. -/
def storeTail (data : Bytes) (table : HashTable) (here stop : Nat) : Option HashTable :=
  if here + vdKeySize ≤ stop then
    [here - 3, here - 2, here - 1].foldlM (storeMapping data) table
  else some table

/-- Each unit of fuel advances the position by at least one byte. -/
def vdelta (data : Bytes) (start stop : Nat) (outputflag : Bool) :
    Nat → HashTable → BuildOps → Nat → Option Nat → Option (HashTable × BuildOps)
  | 0, _, _, _, _ => none
  | fuel + 1, table, baton, here, insertFrom =>
      if stop < here + vdKeySize then
        some (table, if outputflag then emitTail data here stop insertFrom baton else baton)
      else
        let found := searchMatch data table start here stop (stop - here + 1) here ⟨0, 0⟩
        if found.length < vdKeySize then
          match storeMapping data table here with
          | some table =>
              vdelta data start stop outputflag fuel table baton (here + 1)
                (some (insertFrom.getD here))
          | none => none
        else
          match storeTail data table (here + found.length) stop with
          | some table =>
              vdelta data start stop outputflag fuel table
                (if outputflag then emitCopy data start here insertFrom found baton else baton)
                (here + found.length) (if outputflag then none else insertFrom)
          | none => none

/-- The source pass fills the hash table, and the target pass emits the instructions. -/
def txdeltaVdelta (data : Bytes) (sourceLen targetLen : Nat) : Option BuildOps :=
  match vdelta data 0 sourceLen false (sourceLen + 1) (createHashTable (sourceLen + targetLen))
      ⟨[], []⟩ 0 none with
  | none => none
  | some (table, baton) =>
      (vdelta data sourceLen (sourceLen + targetLen) true (targetLen + 1) table baton sourceLen
        none).map Prod.snd

/-- Every mapped position lies before the bound. -/
def HashTable.Below (table : HashTable) (bound : Nat) : Prop :=
  ∀ bucket, ∀ index ∈ table.buckets bucket, index < bound

theorem createHashTable_below (numSlots bound : Nat) : (createHashTable numSlots).Below bound := by
  intro bucket index member
  simp [createHashTable] at member

theorem HashTable.Below.mono {table : HashTable} {bound larger : Nat} (below : table.Below bound)
    (le : bound ≤ larger) : table.Below larger :=
  fun bucket index member => lt_of_lt_of_le (below bucket index member) le

/-- A position beyond all mapped positions is stored, and the assertion holds. -/
theorem storeMapping_below (data : Bytes) {table : HashTable} {bound : Nat} (index : Nat)
    (below : table.Below bound) (fresh : bound ≤ index) :
    ∃ next, storeMapping data table index = some next ∧ next.Below (index + 1) := by
  have unmapped (bucket : Nat) : slotNext (table.buckets bucket) index = none := by
    have dropped : (table.buckets bucket).dropWhile (· ≠ index) = [] := by
      rw [List.dropWhile_eq_nil_iff]
      intro other member
      have := below bucket other member
      simp only [ne_eq, decide_eq_true_eq]
      omega
    unfold slotNext
    rw [dropped]
    rfl
  refine ⟨_, by simp only [storeMapping, unmapped]; rfl, ?_⟩
  intro bucket other member
  by_cases same : bucket = getBucket table (data.drop index)
  · subst same
    simp only [Function.update_self, List.mem_cons] at member
    rcases member with rfl | member
    · omega
    · have := below _ other member
      omega
  · simp only [Function.update_of_ne same] at member
    have := below _ other member
    omega

theorem storeTail_below (data : Bytes) {table : HashTable} {bound : Nat} (here stop : Nat)
    (below : table.Below bound) (advanced : bound + vdKeySize ≤ here) :
    ∃ next, storeTail data table here stop = some next ∧ next.Below here := by
  simp only [vdKeySize] at advanced
  unfold storeTail
  split
  · obtain ⟨first, storedFirst, belowFirst⟩ :=
      storeMapping_below data (here - 3) below (by omega)
    obtain ⟨second, storedSecond, belowSecond⟩ :=
      storeMapping_below data (here - 2) belowFirst (by omega)
    obtain ⟨third, storedThird, belowThird⟩ :=
      storeMapping_below data (here - 1) belowSecond (by omega)
    exact ⟨third, by simp [storedFirst, storedSecond, storedThird], belowThird.mono (by omega)⟩
  · exact ⟨table, rfl, below.mono (by omega)⟩

theorem commonPrefix_le (first second : Bytes) : commonPrefix first second ≤ second.length := by
  induction first generalizing second with
  | nil => cases second <;> simp [commonPrefix]
  | cons value values ih =>
      cases second with
      | nil => simp [commonPrefix]
      | cons other others =>
          have := ih others
          simp only [commonPrefix, List.length_cons]
          split <;> omega

theorem commonPrefix_same (first second : Bytes) (index : Nat)
    (inside : index < commonPrefix first second) : first[index]? = second[index]? := by
  induction first generalizing second index with
  | nil => cases second <;> simp [commonPrefix] at inside
  | cons value values ih =>
      cases second with
      | nil => simp [commonPrefix] at inside
      | cons other others =>
          simp only [commonPrefix] at inside
          split at inside
          · next equal =>
              subst equal
              cases index with
              | zero => rfl
              | succ index => simpa using ih others index (by omega)
          · omega

/-- A match copies earlier data, stays inside the buffer, and does not cross the start. -/
def Match.Sound (found : Match) (data : Bytes) (start here stop : Nat) : Prop :=
  0 < found.length → found.position < here ∧ here + found.length ≤ stop ∧
    (found.position < start → found.position + found.length ≤ start) ∧
    ∀ index, index < found.length → data[found.position + index]? = data[here + index]?

theorem findMatchLen_spec (data : Bytes) (candidate here stop : Nat) (inside : here ≤ stop) :
    here + findMatchLen data candidate here stop ≤ stop ∧
      ∀ index, index < findMatchLen data candidate here stop →
        data[candidate + index]? = data[here + index]? := by
  have bound := commonPrefix_le (data.drop candidate) ((data.take stop).drop here)
  simp only [List.length_drop, List.length_take] at bound
  refine ⟨by unfold findMatchLen; omega, ?_⟩
  intro index less
  have same := commonPrefix_same _ _ index less
  unfold findMatchLen at less
  rw [List.getElem?_drop, List.getElem?_drop, List.getElem?_take_of_lt (by omega)] at same
  exact same

theorem tryCandidate_sound {data : Bytes} {start here stop key : Nat} {current : Match × Bool}
    {slot : Nat} (inside : here ≤ stop) (earlier : slot < here)
    (sound : current.1.Sound data start here stop) :
    (tryCandidate data start here stop key current slot).1.Sound data start here stop := by
  unfold tryCandidate
  split
  · exact sound
  · next near =>
      obtain ⟨extentInside, extentSame⟩ :=
        findMatchLen_spec data (slot - (key - here)) here stop inside
      dsimp only
      split
      · split
        · -- the match would cross the start, so it is cut there
          intro positive
          dsimp only at positive ⊢
          exact ⟨by omega, by omega, fun _ => by omega, fun index less => extentSame index (by omega)⟩
        · exact sound
      · split
        · intro positive
          dsimp only at positive ⊢
          exact ⟨by omega, extentInside, fun _ => by omega, extentSame⟩
        · exact sound

theorem chain_sound {data : Bytes} {start here stop : Nat} (key : Nat) (inside : here ≤ stop)
    (chain : List Nat) (earlier : ∀ slot ∈ chain, slot < here) (current : Match × Bool)
    (sound : current.1.Sound data start here stop) :
    (chain.foldl (tryCandidate data start here stop key) current).1.Sound data start here stop := by
  induction chain generalizing current with
  | nil => exact sound
  | cons slot chain ih =>
      apply ih (fun other member => earlier other (List.mem_cons_of_mem _ member))
      exact tryCandidate_sound inside (earlier slot List.mem_cons_self) sound

theorem searchMatch_sound {data : Bytes} {table : HashTable} {start here stop : Nat}
    (inside : here ≤ stop) (below : table.Below here) (fuel key : Nat) (current : Match)
    (sound : current.Sound data start here stop) :
    (searchMatch data table start here stop fuel key current).Sound data start here stop := by
  induction fuel generalizing key current with
  | zero => exact sound
  | succ fuel ih =>
      have next := chain_sound key inside
        (table.buckets (getBucket table (data.drop key))) (below _) (current, false) sound
      simp only [searchMatch]
      split
      · split
        · exact ih _ _ next
        · exact next
      · exact next

/-- A pass only needs the step lemmas of its two branches and of its end. -/
theorem vdelta_induction (data : Bytes) (start stop : Nat) (outputflag : Bool)
    (invariant : BuildOps → Nat → Option Nat → Prop) (done : BuildOps → Prop)
    (insert : ∀ baton here pending, here + vdKeySize ≤ stop → invariant baton here pending →
      invariant baton (here + 1) (some (pending.getD here)))
    (copy : ∀ baton here pending found, Match.Sound found data start here stop →
      vdKeySize ≤ found.length → invariant baton here pending →
      invariant (if outputflag then emitCopy data start here pending found baton else baton)
        (here + found.length) (if outputflag then none else pending))
    (finish : ∀ baton here pending, here ≤ stop → stop < here + vdKeySize →
      invariant baton here pending →
      done (if outputflag then emitTail data here stop pending baton else baton))
    (fuel : Nat) {table : HashTable} {baton : BuildOps} {here : Nat} (pending : Option Nat)
    (below : table.Below here) (inside : here ≤ stop) (enough : stop - here < fuel)
    (holds : invariant baton here pending) :
    ∃ last final, vdelta data start stop outputflag fuel table baton here pending =
      some (last, final) ∧ last.Below stop ∧ done final := by
  induction fuel generalizing table baton here pending with
  | zero => omega
  | succ fuel ih =>
      rw [vdelta]
      split
      · next short =>
          exact ⟨table, _, rfl, below.mono inside, finish baton here pending inside short holds⟩
      · next long =>
          have room : here + vdKeySize ≤ stop := by omega
          have advanced : here + 1 ≤ stop := by
            simp only [vdKeySize] at room
            omega
          have sound : (searchMatch data table start here stop (stop - here + 1) here
              ⟨0, 0⟩).Sound data start here stop :=
            searchMatch_sound inside below _ _ _ (fun positive => absurd positive (by simp))
          generalize searchMatch data table start here stop (stop - here + 1) here ⟨0, 0⟩ = found
            at sound ⊢
          dsimp only
          split
          · obtain ⟨next, stored, nextBelow⟩ := storeMapping_below data here below (le_refl here)
            rw [stored]
            exact ih _ nextBelow advanced (by omega) (insert baton here pending room holds)
          · next matched =>
              have large : vdKeySize ≤ found.length := by omega
              have positive : 0 < found.length := by
                simp only [vdKeySize] at large
                omega
              obtain ⟨next, stored, nextBelow⟩ := storeTail_below data
                (here + found.length) stop below (by omega)
              rw [stored]
              have reaches := (sound positive).2.1
              exact ih _ nextBelow reaches (by omega) (copy baton here pending found sound large holds)

/-- The window has the views and the new data that the instructions are made for. -/
structure Carries (source target newData : Bytes) (window : TxdeltaWindow) : Prop where
  sview : window.sviewLen = source.length
  tview : window.tviewLen = target.length
  newData : newData <+: window.newData
  newLen : window.newLen = window.newData.length
  sourceSmall : source.length < 2 ^ 63
  targetSmall : target.length < 2 ^ 63

/-- The emitted instructions fit the views and rebuild a prefix of the target. -/
structure Emitted (source target : Bytes) (baton : BuildOps) (upto : Nat) : Prop where
  positive : ∀ op ∈ baton.ops, 0 < op.length
  fits : baton.ops.foldlM (advance source.length) ⟨0, 0⟩ = some ⟨upto, baton.newData.length⟩
  short : baton.newData.length ≤ upto
  rebuilds : ∀ window, Carries source target baton.newData window →
    baton.ops.foldlM (applyOp window source) [] = some (target.take upto)

variable {source target : Bytes} {baton : BuildOps} {upto : Nat}

theorem emitted_start : Emitted source target ⟨[], []⟩ 0 where
  positive := by simp
  fits := rfl
  short := le_rfl
  rebuilds := by simp

/-- One more instruction extends the rebuilt prefix by its length. -/
theorem Emitted.snoc (emitted : Emitted source target baton upto) (op : TxdeltaOp) (more : Bytes)
    (positive : 0 < op.length) (short : more.length ≤ op.length)
    (fits : advance source.length ⟨upto, baton.newData.length⟩ op =
      some ⟨upto + op.length, baton.newData.length + more.length⟩)
    (rebuilds : ∀ window, Carries source target (baton.newData ++ more) window →
      applyOp window source (target.take upto) op = some (target.take (upto + op.length))) :
    Emitted source target ⟨baton.ops ++ [op], baton.newData ++ more⟩ (upto + op.length) := by
  refine ⟨?_, ?_, ?_, ?_⟩
  · intro other member
    rcases List.mem_append.mp member with old | last
    · exact emitted.positive other old
    · rw [List.mem_singleton.mp last]
      exact positive
  · rw [List.foldlM_append, emitted.fits]
    simp [fits]
  · have := emitted.short
    simp only [List.length_append]
    omega
  · intro window carries
    have earlier : Carries source target baton.newData window :=
      { carries with newData := (List.prefix_append _ _).trans carries.newData }
    rw [List.foldlM_append, emitted.rebuilds window earlier]
    simp [rebuilds window carries]

theorem applyOp_room {window : TxdeltaWindow} {upto : Nat} {op : TxdeltaOp}
    (offset : op.offset < 2 ^ 63) (length : op.length < 2 ^ 63)
    (room : upto + op.length ≤ window.tviewLen) :
    ¬ (negative op.offset ∨ negative op.length ∨
      window.tviewLen < (target.take upto).length + op.length) := by
  simp only [negative, List.length_take]
  omega

/-- New data is the next part of the target itself. -/
theorem emitted_new (emitted : Emitted source target baton upto) (next : Nat) (less : upto < next)
    (inside : next ≤ target.length) :
    Emitted source target (txdeltaInsertOp baton .new 0 (next - upto)
      ((source ++ target).drop (source.length + upto))) next := by
  have bytes : ((source ++ target).drop (source.length + upto)).take (next - upto) =
      (target.drop upto).take (next - upto) := by
    rw [List.drop_append, List.drop_eq_nil_of_le (by omega), List.nil_append,
      Nat.add_sub_cancel_left]
  have length : ((target.drop upto).take (next - upto)).length = next - upto := by
    simp
    omega
  have reaches : upto + (next - upto) = next := by omega
  rw [txdeltaInsertOp, bytes]
  have small := emitted.short
  conv => rhs; rw [← reaches]
  refine emitted.snoc ⟨.new, baton.newData.length, next - upto⟩ _ (by simpa using less)
    (le_of_eq length) ?_ ?_
  · simp only [advance, if_pos, length]
  · intro window carries
    obtain ⟨later, whole⟩ := carries.newData
    have := carries.tview
    have := carries.targetSmall
    have total : baton.newData.length + (next - upto) ≤ window.newLen := by
      rw [carries.newLen, ← whole]
      simp only [List.length_append, length]
      omega
    have copied : slice window.newData baton.newData.length (next - upto) =
        some ((target.drop upto).take (next - upto)) := by
      unfold slice
      rw [if_pos (carries.newLen ▸ total), ← whole, List.append_assoc, List.drop_left' rfl,
        List.take_left' length]
    rw [applyOp, if_neg (applyOp_room (by dsimp only; omega) (by dsimp only; omega)
      (by dsimp only; omega))]
    simp only [total, if_pos, copied, Option.map_some, List.take_add]

/-- A source copy repeats bytes of the source view. -/
theorem emitted_source (emitted : Emitted source target baton upto) {position length : Nat}
    (positive : 0 < length) (inside : position + length ≤ source.length)
    (room : upto + length ≤ target.length)
    (same : ∀ index, index < length → source[position + index]? = target[upto + index]?) :
    Emitted source target (txdeltaInsertOp baton .source position length []) (upto + length) := by
  have copied : slice source position length = some ((target.drop upto).take length) := by
    unfold slice
    rw [if_pos inside]
    congr 1
    apply List.ext_getElem?
    intro index
    by_cases less : index < length
    · simp [List.getElem?_take_of_lt less, same index less]
    · simp [less]
  have appended := emitted.snoc ⟨.source, position, length⟩ [] positive (Nat.zero_le _)
    (by simp [advance, inside]) (by
      intro window carries
      have := carries.tview
      have := carries.sourceSmall
      have := carries.targetSmall
      rw [applyOp, if_neg (applyOp_room (by dsimp only; omega) (by dsimp only; omega)
        (by dsimp only; omega))]
      simp only [carries.sview, inside, if_pos, copied, Option.map_some, List.take_add])
  simpa [txdeltaInsertOp] using appended

/-- A target copy repeats bytes that are already rebuilt. -/
theorem emitted_target (emitted : Emitted source target baton upto) {position length : Nat}
    (positive : 0 < length) (before : position < upto) (room : upto + length ≤ target.length)
    (same : ∀ index, index < length → target[position + index]? = target[upto + index]?) :
    Emitted source target (txdeltaInsertOp baton .target position length []) (upto + length) := by
  have taken : (target.take upto).length = upto := by
    simp
    omega
  have appended := emitted.snoc ⟨.target, position, length⟩ [] positive (Nat.zero_le _)
    (by simp [advance, before]) (by
      intro window carries
      have := carries.tview
      have := carries.targetSmall
      rw [applyOp, if_neg (applyOp_room (by dsimp only; omega) (by dsimp only; omega)
        (by dsimp only; omega))]
      simp only [taken, before, if_pos]
      rw [selfCopy_take target position upto length before room same])
  simpa [txdeltaInsertOp] using appended

/-- A match of the target pass lies in the source view or in the rebuilt prefix. -/
theorem emitted_match (emitted : Emitted source target baton upto) {found : Match}
    (sound : found.Sound (source ++ target) source.length (source.length + upto)
      (source.length + target.length)) (positive : 0 < found.length) :
    Emitted source target
      (if found.position < source.length then
        txdeltaInsertOp baton .source found.position found.length []
      else txdeltaInsertOp baton .target (found.position - source.length) found.length [])
      (upto + found.length) := by
  obtain ⟨before, inside, uncrossed, same⟩ := sound positive
  have later (index : Nat) : (source ++ target)[source.length + upto + index]? =
      target[upto + index]? := by
    rw [List.getElem?_append_right (by omega)]
    congr 1
    omega
  split
  · next earlier =>
      have fitting := uncrossed earlier
      apply emitted_source emitted positive fitting (by omega)
      intro index less
      rw [← later, ← same index less, List.getElem?_append_left (by omega)]
  · apply emitted_target emitted positive (by omega) (by omega)
    intro index less
    rw [← later, ← same index less, List.getElem?_append_right (by omega)]
    congr 1
    omega

/-- Every emitted instruction ends where the pending insertion starts. -/
def Pending (source target : Bytes) (baton : BuildOps) (here : Nat) (pending : Option Nat) : Prop :=
  (∀ position ∈ pending, position < here) ∧
    ∃ upto, pending.getD here = source.length + upto ∧ source.length + upto ≤ here ∧
      Emitted source target baton upto

theorem pending_insert {here : Nat} {pending : Option Nat}
    (holds : Pending source target baton here pending) :
    Pending source target baton (here + 1) (some (pending.getD here)) := by
  obtain ⟨before, upto, starts, le, emitted⟩ := holds
  refine ⟨?_, upto, by simpa using starts, by omega, emitted⟩
  intro position member
  cases member
  omega

/-- The pending insertion is flushed, so the instructions reach the current position. -/
theorem pending_flush {here : Nat} {pending : Option Nat}
    (inside : here ≤ source.length + target.length)
    (holds : Pending source target baton here pending) :
    Emitted source target (commitInsert (source ++ target) here pending baton)
      (here - source.length) := by
  obtain ⟨before, upto, starts, le, emitted⟩ := holds
  cases pending with
  | none =>
      have same : here - source.length = upto := by
        simp only [Option.getD_none] at starts
        omega
      rw [same]
      exact emitted
  | some position =>
      have less := before position rfl
      simp only [Option.getD_some] at starts
      subst starts
      have flushed := emitted_new emitted (here - source.length) (by omega) (by omega)
      rwa [show here - source.length - upto = here - (source.length + upto) by omega] at flushed

theorem pending_copy {here : Nat} {pending : Option Nat} {found : Match}
    (sound : found.Sound (source ++ target) source.length here (source.length + target.length))
    (positive : 0 < found.length) (holds : Pending source target baton here pending) :
    Pending source target (emitCopy (source ++ target) source.length here pending found baton)
      (here + found.length) none := by
  have reaches := (sound positive).2.1
  obtain ⟨upto, rfl⟩ : ∃ upto, here = source.length + upto := by
    obtain ⟨_, upto, _, le, _⟩ := holds
    exact ⟨here - source.length, by omega⟩
  have flushed := pending_flush (by omega) holds
  rw [Nat.add_sub_cancel_left] at flushed
  refine ⟨by simp, upto + found.length, by simp; omega, by omega, ?_⟩
  exact emitted_match flushed sound positive

theorem pending_tail {here : Nat} {pending : Option Nat}
    (inside : here ≤ source.length + target.length)
    (holds : Pending source target baton here pending) :
    Emitted source target (emitTail (source ++ target) here (source.length + target.length)
      pending baton) target.length := by
  obtain ⟨before, upto, starts, le, emitted⟩ := holds
  unfold emitTail
  dsimp only
  rw [starts]
  split
  · have flushed := emitted_new emitted target.length (by omega) le_rfl
    rwa [show target.length - upto = source.length + target.length - (source.length + upto) by
      omega] at flushed
  · rwa [show target.length = upto by omega]

/-- The two passes succeed, and their instructions rebuild the whole target. -/
theorem txdeltaVdelta_emits (source target : Bytes) :
    ∃ baton, txdeltaVdelta (source ++ target) source.length target.length = some baton ∧
      Emitted source target baton target.length := by
  obtain ⟨table, first, sourcePass, below, rfl⟩ :=
    vdelta_induction (source ++ target) 0 source.length false
      (fun baton _ _ => baton = ⟨[], []⟩) (fun baton => baton = ⟨[], []⟩)
      (fun _ _ _ _ same => same) (fun _ _ _ _ _ _ same => same) (fun _ _ _ _ _ same => same)
      (source.length + 1) none (createHashTable_below (source.length + target.length) 0)
      (Nat.zero_le _) (by omega) rfl
  obtain ⟨_, baton, targetPass, _, emitted⟩ :=
    vdelta_induction (source ++ target) source.length (source.length + target.length) true
      (Pending source target)
      (fun baton => Emitted source target baton target.length)
      (fun _ _ _ _ holds => pending_insert holds)
      (fun _ _ _ _ sound large holds =>
        pending_copy sound (lt_of_lt_of_le (by decide) large) holds)
      (fun _ _ _ inside _ holds => pending_tail inside holds)
      (target.length + 1) none below (by omega) (by omega)
      ⟨by simp, 0, rfl, le_rfl, emitted_start⟩
  refine ⟨baton, ?_, emitted⟩
  unfold txdeltaVdelta
  rw [sourcePass]
  dsimp only
  rw [targetPass]
  rfl

end Subversion.Delta
