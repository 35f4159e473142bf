/-
This file models node revision ids: their text, their order, and their predecessors.
-/

import Mathlib.Data.Prod.Lex
import Mathlib.Data.List.Lex
import Subversion.Delta.Window

namespace Subversion.Fs

open Delta

/-- Node and branch numbers stand at even positions, and revision numbers at odd ones. The
terminating `-1` is left out. -/
abbrev NodeId := List Nat

/-- The largest number that is read from the text of an id. -/
def idLimit : Nat := 100000000

def digitByte (digit : Nat) : UInt8 := UInt8.ofNat (48 + digit)

/-- Each unit of fuel writes one digit. -/
def putDigits : Nat → Nat → Bytes
  | 0, _ => []
  | fuel + 1, value =>
      (if 0 < value / 10 then putDigits fuel (value / 10) else []) ++ [digitByte (value % 10)]

def putSize (value : Nat) : Bytes := putDigits (value + 1) value

def isDigit (byte : UInt8) : Prop := 48 ≤ byte.toNat ∧ byte.toNat ≤ 57

instance (byte : UInt8) : Decidable (isDigit byte) := inferInstanceAs (Decidable (_ ∧ _))

/-- The check for overflow comes before the multiplication. -/
def getDigits (max value : Nat) : Bytes → Option (Nat × Bytes)
  | [] => some (value, [])
  | byte :: rest =>
      if isDigit byte then
        if max / 10 < value ∨ (value = max / 10 ∧ max % 10 < byte.toNat - 48) then none
        else getDigits max (value * 10 + (byte.toNat - 48)) rest
      else some (value, byte :: rest)

/-- There must be at least one digit. -/
def getSize (max : Nat) : Bytes → Option (Nat × Bytes)
  | [] => none
  | byte :: rest => if isDigit byte then getDigits max 0 (byte :: rest) else none

def unparseId : NodeId → Bytes
  | [] => []
  | [value] => putSize value
  | value :: rest => putSize value ++ 46 :: unparseId rest

/-- The flag says whether the current component has a digit. -/
def countComponents (started : Bool) (count : Nat) : Bytes → Nat
  | [] => if started then count else 0
  | byte :: rest =>
      if byte = 46 then if started then countComponents false (count + 1) rest else 0
      else if isDigit byte then countComponents true count rest
      else 0

def countIdComponents (data : Bytes) : Nat := countComponents false 1 data

/-- Each unit of fuel reads one component. -/
def parseComponents : Nat → Bytes → Option NodeId
  | 0, _ => none
  | fuel + 1, data =>
      match getSize idLimit data with
      | none => none
      | some (value, []) => some [value]
      | some (value, byte :: rest) =>
          if byte = 46 then (parseComponents fuel rest).map (value :: ·) else none

def parseId (data : Bytes) : Option NodeId :=
  if countIdComponents data = 0 then none else parseComponents (data.length + 1) data

/-- The index of the first difference is even or odd. Ids of even length never end at an odd index,
where the code would abort. -/
def compareFrom : Bool → NodeId → NodeId → Ordering
  | _, [], [] => .eq
  | _, [], _ :: _ => .lt
  | _, _ :: _, [] => .gt
  | even, first :: firsts, second :: seconds =>
      if first = second then compareFrom (!even) firsts seconds
      else if even then compare first second
      else
        match firsts, seconds with
        | [], [] => compare first second
        -- a branch comes after all revisions of its node
        | [], _ :: _ => .lt
        | _ :: _, [] => .gt
        | _ :: _, _ :: _ => compare first second

def compareIds (first second : NodeId) : Ordering := compareFrom true first second

/-- A key of odd length is a node id and not a node revision id. -/
def parseNodeRevisionDbt (data : Bytes) : Option NodeId :=
  match parseId data with
  | none => none
  | some id => if id.length % 2 = 1 then none else some id

def compareDbt : Bytes → Bytes → Ordering
  | [], [] => .eq
  | [], _ :: _ => .lt
  | _ :: _, [] => .gt
  | first :: firsts, second :: seconds =>
      if first = second then compareDbt firsts seconds else compare first.toNat second.toNat

/-- Malformed keys come before well-formed ones, in the order of their bytes. -/
def compareNodesKeys (first second : NodeId) : Ordering :=
  match parseNodeRevisionDbt (unparseId first), parseNodeRevisionDbt (unparseId second) with
  | some first, some second => compareIds first second
  | some _, none => .gt
  | none, some _ => .lt
  | none, none => compareDbt (unparseId first) (unparseId second)

/-- The previous revision, or the revision that the branch starts from. -/
def idPredecessor (id : NodeId) : Option NodeId :=
  match id.getLast? with
  | none => none
  | some last =>
      if 1 < last then some (id.dropLast ++ [last - 1])
      else if 2 < id.length then some (id.take (id.length - 2))
      else none

/-- The first id is the second one or stands in its line of predecessors. -/
def idIsAncestor : NodeId → NodeId → Bool
  | [], _ => true
  | _ :: _, [] => false
  | first :: firsts, second :: seconds =>
      if first ≠ second then false
      else
        match firsts, seconds with
        | revision :: rest, other :: more =>
            if other < revision then false
            else if revision < other then rest.isEmpty
            else idIsAncestor rest more
        | _, _ => false

/-- The revisions on all branches are added up. -/
def distanceFromPrefix : NodeId → Nat
  | _ :: revision :: rest => revision + distanceFromPrefix rest
  | _ => 0

def distanceBehindPrefix : NodeId → NodeId → Nat
  | first :: revision :: rest, second :: other :: more =>
      if first = second ∧ revision = other then distanceBehindPrefix rest more
      else if first = second then
        distanceFromPrefix rest + distanceFromPrefix more + ((revision - other) + (other - revision))
      else
        distanceFromPrefix (first :: revision :: rest) + distanceFromPrefix (second :: other :: more)
  | first, second => distanceFromPrefix first + distanceFromPrefix second

/-- Ids of different nodes are unrelated. -/
def idDistance (first second : NodeId) : Option Nat :=
  if first.head? ≠ second.head? then none else some (distanceBehindPrefix first second)

/-- The text of the id is read back. -/
def WithinLimit (id : NodeId) : Prop := ∀ value ∈ id, value ≤ idLimit

instance (id : NodeId) : Decidable (WithinLimit id) :=
  inferInstanceAs (Decidable (∀ value ∈ id, value ≤ idLimit))

theorem withinLimit_cons {value : Nat} {id : NodeId} :
    WithinLimit (value :: id) ↔ value ≤ idLimit ∧ WithinLimit id := List.forall_mem_cons

section Text

theorem digitByte_toNat {digit : Nat} (small : digit < 10) : (digitByte digit).toNat = 48 + digit := by
  rw [digitByte, UInt8.toNat_ofNat']
  omega

theorem isDigit_digitByte {digit : Nat} (small : digit < 10) : isDigit (digitByte digit) := by
  rw [isDigit, digitByte_toNat small]
  omega

/-- Reading a number back stops at the limit. -/
theorem getDigits_putDigits (max fuel : Nat) :
    ∀ (value : Nat) (rest : Bytes), value < fuel →
      getDigits max 0 (putDigits fuel value ++ rest) =
        if value ≤ max then getDigits max value rest else none := by
  induction fuel with
  | zero =>
      intro value rest short
      omega
  | succ fuel ih =>
      intro value rest short
      have small : value % 10 < 10 := Nat.mod_lt _ (by decide)
      have digit := digitByte_toNat small
      have step : ∀ prior, getDigits max prior (digitByte (value % 10) :: rest) =
          if max / 10 < prior ∨ (prior = max / 10 ∧ max % 10 < value % 10) then none
          else getDigits max (prior * 10 + value % 10) rest := by
        intro prior
        rw [getDigits, if_pos (isDigit_digitByte small), digit, Nat.add_sub_cancel_left]
      rw [putDigits, List.append_assoc, List.singleton_append]
      split
      · next more =>
          rw [ih (value / 10) _ (by omega), step]
          by_cases below : value ≤ max
          · rw [if_pos below, if_pos (by omega), if_neg (by omega)]
            congr 1
            omega
          · rw [if_neg below]
            split
            · rw [if_pos (by omega)]
            · rfl
      · next single =>
          rw [List.nil_append, step, Nat.zero_mul, Nat.zero_add]
          have isDigit : value % 10 = value := by omega
          rw [isDigit]
          by_cases below : value ≤ max
          · rw [if_pos below, if_neg (by omega)]
          · rw [if_neg below, if_pos (by omega)]

theorem isDigit_putDigits (fuel : Nat) : ∀ value, ∀ byte ∈ putDigits fuel value, isDigit byte := by
  induction fuel with
  | zero => simp [putDigits]
  | succ fuel ih =>
      intro value byte member
      rw [putDigits, List.mem_append, List.mem_singleton] at member
      rcases member with earlier | rfl
      · split at earlier
        · exact ih _ byte earlier
        · cases earlier
      · exact isDigit_digitByte (Nat.mod_lt _ (by decide))

theorem putSize_ne_nil (value : Nat) : putSize value ≠ [] := by
  rw [putSize, putDigits]
  simp

/-- A number is read up to the end or to the next byte that is not a digit. -/
theorem getSize_putSize (max value : Nat) {rest : Bytes}
    (ends : ∀ byte more, rest = byte :: more → ¬ isDigit byte) :
    getSize max (putSize value ++ rest) = if value ≤ max then some (value, rest) else none := by
  have stops : getDigits max value rest = some (value, rest) := by
    cases rest with
    | nil => rfl
    | cons byte more => rw [getDigits, if_neg (ends byte more rfl)]
  obtain ⟨byte, bytes, split⟩ := List.exists_cons_of_ne_nil (putSize_ne_nil value)
  have digit : isDigit byte := by
    apply isDigit_putDigits (value + 1) value byte
    rw [← putSize, split]
    exact List.mem_cons_self
  rw [split, List.cons_append, getSize, if_pos digit, ← List.cons_append, ← split, putSize,
    getDigits_putDigits max (value + 1) value rest (Nat.lt_succ_self _), stops]

theorem countComponents_digits (count : Nat) (digits rest : Bytes)
    (all : ∀ byte ∈ digits, isDigit byte) :
    ∀ started, digits ≠ [] →
      countComponents started count (digits ++ rest) = countComponents true count rest := by
  induction digits with
  | nil => exact fun _ nonempty => absurd rfl nonempty
  | cons byte bytes ih =>
      intro started _
      have digit := all byte List.mem_cons_self
      have notDot : byte ≠ 46 := by
        rintro rfl
        exact absurd digit (by decide)
      rw [List.cons_append, countComponents, if_neg notDot, if_pos digit]
      cases bytes with
      | nil => rfl
      | cons next more =>
          exact ih (fun other member => all other (List.mem_cons_of_mem _ member)) true
            (List.cons_ne_nil _ _)

theorem countComponents_unparseId (id : NodeId) :
    ∀ count, id ≠ [] → countComponents false count (unparseId id) + 1 = count + id.length := by
  induction id with
  | nil => exact fun _ nonempty => absurd rfl nonempty
  | cons value rest ih =>
      intro count _
      have digits := isDigit_putDigits (value + 1) value
      cases rest with
      | nil =>
          have counted := countComponents_digits count (putSize value) [] digits false
            (putSize_ne_nil value)
          rw [List.append_nil] at counted
          rw [unparseId, counted]
          rfl
      | cons next more =>
          rw [unparseId, countComponents_digits count (putSize value) _ digits false
            (putSize_ne_nil value), countComponents, if_pos rfl, if_pos rfl,
            ih (count + 1) (List.cons_ne_nil _ _)]
          · simp only [List.length_cons]
            omega
          · simp

theorem length_unparseId (id : NodeId) : id.length ≤ (unparseId id).length := by
  induction id with
  | nil => exact le_rfl
  | cons value rest ih =>
      have digits := List.length_pos_iff.mpr (putSize_ne_nil value)
      cases rest with
      | nil =>
          rw [unparseId, List.length_singleton]
          exact digits
      | cons next more =>
          rw [unparseId, List.length_append]
          · simp only [List.length_cons] at ih ⊢
            omega
          · simp

theorem parseComponents_unparseId (id : NodeId) :
    ∀ fuel, id ≠ [] → id.length ≤ fuel →
      parseComponents fuel (unparseId id) =
        if WithinLimit id then some id else none := by
  induction id with
  | nil => exact fun _ nonempty => absurd rfl nonempty
  | cons value rest ih =>
      intro fuel _ enough
      rw [List.length_cons] at enough
      obtain ⟨fuel, rfl⟩ : ∃ less, fuel = less + 1 := ⟨fuel - 1, by omega⟩
      cases rest with
      | nil =>
          have read := @getSize_putSize idLimit value [] (by simp)
          rw [List.append_nil] at read
          rw [unparseId, parseComponents, read]
          by_cases small : value ≤ idLimit
          · simp [small, WithinLimit]
          · simp [small, WithinLimit]
      | cons next more =>
          have read := @getSize_putSize idLimit value (46 :: unparseId (next :: more)) (by
            rintro byte bytes ⟨⟩
            decide)
          have later := ih fuel (List.cons_ne_nil _ _) (by omega)
          rw [unparseId, parseComponents, read]
          · by_cases small : value ≤ idLimit
            · rw [if_pos small]
              simp only [if_true]
              rw [later]
              by_cases rest : WithinLimit (next :: more)
              · rw [if_pos rest, if_pos (withinLimit_cons.mpr ⟨small, rest⟩)]
                rfl
              · rw [if_neg rest, if_neg fun all => rest (withinLimit_cons.mp all).2]
                rfl
            · rw [if_neg small, if_neg fun all => small (withinLimit_cons.mp all).1]
          · simp

/-- The text of an id is read back unless one of its numbers is over the limit. -/
theorem parseId_unparseId (id : NodeId) (nonempty : id ≠ []) :
    parseId (unparseId id) = if WithinLimit id then some id else none := by
  have counted := countComponents_unparseId id 1 nonempty
  have positive := List.length_pos_iff.mpr nonempty
  have length := length_unparseId id
  rw [parseId, countIdComponents, if_neg (by omega),
    parseComponents_unparseId id _ nonempty (by omega)]

end Text

/-- The key is read as a node revision id. -/
def WellFormed (id : NodeId) : Prop := id ≠ [] ∧ WithinLimit id ∧ id.length % 2 = 0

instance (id : NodeId) : Decidable (WellFormed id) := inferInstanceAs (Decidable (_ ∧ _))

/-- The revisions of a node or branch come before its branches, which are marked with one. -/
def rank : NodeId → List Nat
  | [] => []
  | [number] => [number]
  | [number, revision] => [number, 0, revision]
  | number :: revision :: rest => number :: 1 :: revision :: rank rest

/-- The place of a key in the nodes table. -/
def position (id : NodeId) : Bool ×ₗ List Nat :=
  if WellFormed id then toLex (true, rank id)
  else toLex (false, (unparseId id).map UInt8.toNat)

section Order

theorem parseNodeRevisionDbt_unparseId (id : NodeId) :
    parseNodeRevisionDbt (unparseId id) = if WellFormed id then some id else none := by
  by_cases nonempty : id = []
  · subst nonempty
    rfl
  · rw [parseNodeRevisionDbt, parseId_unparseId id nonempty]
    by_cases within : WithinLimit id
    · rw [if_pos within]
      by_cases even : id.length % 2 = 0
      · rw [if_pos (show WellFormed id from ⟨nonempty, within, even⟩)]
        simp only
        rw [if_neg (by omega)]
      · rw [if_neg fun wellFormed : WellFormed id => even wellFormed.2.2]
        simp only
        rw [if_pos (by omega)]
    · rw [if_neg within, if_neg fun wellFormed : WellFormed id => within wellFormed.2.1]

theorem rank_cons (number revision : Nat) {rest : NodeId} (nonempty : rest ≠ []) :
    rank (number :: revision :: rest) = number :: 1 :: revision :: rank rest := by
  cases rest with
  | nil => exact absurd rfl nonempty
  | cons next more => rfl

theorem rank_eq (number revision : Nat) (rest : NodeId) :
    rank (number :: revision :: rest) =
      number :: (if rest = [] then 0 else 1) :: revision :: rank rest := by
  cases rest <;> rfl

/-- A node revision id is a sequence of pairs: a node or branch number, and a revision number. -/
inductive Pairs : NodeId → Prop where
  | nil : Pairs []
  | cons (number revision : Nat) {rest : NodeId} (pairs : Pairs rest) :
      Pairs (number :: revision :: rest)

theorem pairs_of_even : ∀ id : NodeId, id.length % 2 = 0 → Pairs id
  | [], _ => Pairs.nil
  | [_], even => by simp at even
  | number :: revision :: rest, even => by
      apply Pairs.cons
      apply pairs_of_even
      simp only [List.length_cons] at even
      omega

theorem Pairs.even {id : NodeId} (pairs : Pairs id) : id.length % 2 = 0 := by
  induction pairs with
  | nil => rfl
  | cons number revision pairs ih =>
      simp only [List.length_cons]
      omega

theorem compareFrom_pairs (number revision other later : Nat) (rest more : NodeId) :
    compareFrom true (number :: revision :: rest) (other :: later :: more) =
      if number = other then
        if revision = later then compareFrom true rest more
        else
          match rest, more with
          | [], _ :: _ => .lt
          | _ :: _, [] => .gt
          | _, _ => compare revision later
      else compare number other := by
  cases rest <;> cases more <;> simp [compareFrom]

/-- On node revision ids, the order is the order of the ranks. -/
theorem compareIds_lt {first : NodeId} (pairs : Pairs first) :
    ∀ {second : NodeId}, Pairs second → (compareIds first second = .lt ↔ rank first < rank second) := by
  unfold compareIds
  induction pairs with
  | nil =>
      intro second others
      cases others with
      | nil => simp [compareFrom, rank]
      | cons number revision _ => simp [compareFrom, rank_eq, rank]
  | @cons number revision rest pairs ih =>
      intro second others
      cases others with
      | nil => simp [compareFrom, rank_eq, rank]
      | @cons other later more others =>
          have deeper := ih others
          rw [rank_eq, rank_eq, compareFrom_pairs]
          simp only [List.cons_lt_cons_iff]
          by_cases same : number = other
          · subst same
            rw [if_pos rfl]
            by_cases equal : revision = later
            · subst equal
              rw [if_pos rfl, deeper]
              cases pairs <;> cases others <;> simp [rank, rank_eq]
            · rw [if_neg equal]
              cases rest <;> cases more <;> simp [Nat.compare_eq_lt, equal]
          · rw [if_neg same, Nat.compare_eq_lt]
            simp [same]

theorem compareDbt_lt (first : Bytes) : ∀ second : Bytes,
    compareDbt first second = .lt ↔ first.map UInt8.toNat < second.map UInt8.toNat := by
  induction first with
  | nil =>
      intro second
      cases second <;> simp [compareDbt]
  | cons byte bytes ih =>
      intro second
      cases second with
      | nil => simp [compareDbt]
      | cons other others =>
          rw [compareDbt, List.map_cons, List.map_cons, List.cons_lt_cons_iff]
          by_cases same : byte = other
          · subst same
            simp [ih others]
          · have distinct : byte.toNat ≠ other.toNat := fun equal => same (UInt8.toNat_inj.mp equal)
            rw [if_neg same, Nat.compare_eq_lt]
            simp [distinct]

/-- The keys of the nodes table stand in the order of their places. -/
theorem compareNodesKeys_lt (first second : NodeId) :
    compareNodesKeys first second = .lt ↔ position first < position second := by
  unfold compareNodesKeys position
  rw [parseNodeRevisionDbt_unparseId, parseNodeRevisionDbt_unparseId]
  by_cases one : WellFormed first
  · by_cases two : WellFormed second
    · rw [if_pos one, if_pos two, if_pos one, if_pos two, Prod.Lex.toLex_lt_toLex]
      simp [compareIds_lt (pairs_of_even first one.2.2) (pairs_of_even second two.2.2)]
    · rw [if_pos one, if_neg two, if_pos one, if_neg two, Prod.Lex.toLex_lt_toLex]
      simp
  · by_cases two : WellFormed second
    · rw [if_neg one, if_pos two, if_neg one, if_pos two, Prod.Lex.toLex_lt_toLex]
      simp
    · rw [if_neg one, if_neg two, if_neg one, if_neg two, Prod.Lex.toLex_lt_toLex]
      simp [compareDbt_lt]

theorem position_lt {first second : NodeId} (one : WellFormed first) (two : WellFormed second) :
    position first < position second ↔ rank first < rank second := by
  rw [position, position, if_pos one, if_pos two, Prod.Lex.toLex_lt_toLex]
  simp

end Order

end Subversion.Fs
