/-
This file shows that the strings table behaves as a finite map from keys to byte strings.
-/

import Mathlib.Data.Finmap
import Subversion.Fs.Strings

namespace Subversion.Fs

open Delta

inductive StringOp where
  | append (key : Option StrKey) (bytes : Bytes)
  | read (key : StrKey) (offset len : Nat)
  | size (key : StrKey)
  | clear (key : StrKey)
  | delete (key : StrKey)
  | copy (key : StrKey)
  deriving DecidableEq, Repr

/-- What an operation returns to its caller. -/
inductive StringAnswer where
  | key (key : StrKey)
  | bytes (bytes : Bytes)
  | size (size : Nat)
  | done
  deriving DecidableEq, Repr

def runStringOp (table : StringsTable) : StringOp → Except SvnError (StringAnswer × StringsTable)
  | .append key bytes =>
      let (key, next) := stringAppend table key bytes
      .ok (.key key, next)
  | .read key offset len => (stringRead table key offset len).map fun bytes => (.bytes bytes, table)
  | .size key => (stringSize table key).map fun size => (.size size, table)
  | .clear key => (stringClear table key).map fun next => (.done, next)
  | .delete key => (stringDelete table key).map fun next => (.done, next)
  | .copy key => (stringCopy table key).map fun (key, next) => (.key key, next)

/-- A failed operation is rolled back with its trail. -/
def runStringOps (table : StringsTable) : List StringOp → List (Option StringAnswer) × StringsTable
  | [] => ([], table)
  | op :: ops =>
      match runStringOp table op with
      | .ok (answer, next) =>
          let (answers, last) := runStringOps next ops
          (some answer :: answers, last)
      | .error _ =>
          let (answers, last) := runStringOps table ops
          (none :: answers, last)

/-- The finite map that the table stands for. The counter names the next fresh key. -/
structure StringMap where
  map : Finmap fun _ : StrKey => Bytes
  next : Nat

/-- The operations on the map. An operation on an absent string answers nothing. -/
def StringMap.run (strings : StringMap) : StringOp → Option (StringAnswer × StringMap)
  | .append none bytes =>
      some (.key (some strings.next),
        ⟨strings.map.insert (some strings.next) bytes, strings.next + 1⟩)
  | .append (some key) bytes =>
      some (.key key,
        { strings with map := strings.map.insert key ((strings.map.lookup key).getD [] ++ bytes) })
  | .read key offset len => (strings.map.lookup key).map fun text =>
      (.bytes ((text.drop offset).take len), strings)
  | .size key => (strings.map.lookup key).map fun text => (.size text.length, strings)
  | .clear key => (strings.map.lookup key).map fun _ =>
      (.done, { strings with map := strings.map.insert key [] })
  | .delete key => (strings.map.lookup key).map fun _ =>
      (.done, { strings with map := strings.map.erase key })
  | .copy key => (strings.map.lookup key).map fun text =>
      (.key (some strings.next),
        ⟨strings.map.insert (some strings.next) text, strings.next + 1⟩)

def StringMap.runAll (strings : StringMap) : List StringOp → List (Option StringAnswer) × StringMap
  | [] => ([], strings)
  | op :: ops =>
      match strings.run op with
      | some (answer, next) =>
          let (answers, last) := next.runAll ops
          (some answer :: answers, last)
      | none =>
          let (answers, last) := strings.runAll ops
          (none :: answers, last)

/-- The key that an operation names. -/
def StringOp.named : StringOp → Option StrKey
  | .append key _ => key
  | .read key _ _ => some key
  | .size key => some key
  | .clear key => some key
  | .delete key => some key
  | .copy key => some key

/-- The caller got the key from the table. -/
def HandedOut (nextKey : Nat) (op : StringOp) : Prop :=
  ∀ key ∈ op.named, ∃ n ∈ key, n < nextKey

instance (nextKey : Nat) (op : StringOp) : Decidable (HandedOut nextKey op) :=
  inferInstanceAs (Decidable (∀ key ∈ op.named, ∃ n ∈ key, n < nextKey))

/-- Every operation names only keys that earlier operations have returned. -/
def KnownKeys (table : StringsTable) : List StringOp → Prop
  | [] => True
  | op :: ops => HandedOut table.nextKey op ∧
      match runStringOp table op with
      | .ok (_, next) => KnownKeys next ops
      | .error _ => KnownKeys table ops

instance decidableKnownKeys (table : StringsTable) (ops : List StringOp) :
    Decidable (KnownKeys table ops) :=
  match ops with
  | [] => isTrue trivial
  | op :: ops =>
      match ran : runStringOp table op with
      | .ok (answer, next) =>
          have := decidableKnownKeys next ops
          decidable_of_iff (HandedOut table.nextKey op ∧ KnownKeys next ops)
            (by simp only [KnownKeys, ran])
      | .error error =>
          have := decidableKnownKeys table ops
          decidable_of_iff (HandedOut table.nextKey op ∧ KnownKeys table ops)
            (by simp only [KnownKeys, ran])

/-- The table holds the strings of the map, and no string under a key that is still to come. -/
structure Stands (table : StringsTable) (strings : StringMap) : Prop where
  text : ∀ key, table.text key = strings.map.lookup key
  next : table.nextKey = strings.next
  fresh : ∀ n, table.nextKey ≤ n → table.records (some n) = none

section Refinement

variable {table : StringsTable} {strings : StringMap}

theorem text_update (records : StrKey → Option (List Bytes)) (nextKey : Nat) (changed key : StrKey)
    (written : Option (List Bytes)) :
    StringsTable.text ⟨Function.update records changed written, nextKey⟩ key =
      if key = changed then written.map List.flatten else (records key).map List.flatten := by
  simp only [StringsTable.text]
  by_cases same : key = changed
  · rw [same, Function.update_self, if_pos rfl]
  · rw [Function.update_of_ne same, if_neg same]

/-- Writing one string of the table writes the same string of the map. -/
theorem Stands.write (stands : Stands table strings) {nextKey : Nat} {changed : StrKey}
    (written : List Bytes) (grows : table.nextKey ≤ nextKey)
    (known : ∃ n ∈ changed, n < nextKey) :
    Stands ⟨Function.update table.records changed (some written), nextKey⟩
      ⟨strings.map.insert changed written.flatten, nextKey⟩ := by
  obtain ⟨n, isKey, below⟩ := known
  cases isKey
  constructor
  · intro key
    rw [text_update]
    split
    · next same => rw [same, Finmap.lookup_insert, Option.map_some]
    · next other => rw [Finmap.lookup_insert_of_ne _ other, ← stands.text, StringsTable.text]
  · rfl
  · intro m beyond
    dsimp only at beyond ⊢
    have other : (some m : StrKey) ≠ some n := by
      intro same
      have := Option.some.inj same
      omega
    rw [Function.update_of_ne other]
    exact stands.fresh m (by omega)

theorem Stands.append (stands : Stands table strings) {key : Option StrKey} {bytes : Bytes}
    (known : HandedOut table.nextKey (.append key bytes)) :
    ∃ answer next after, runStringOp table (.append key bytes) = .ok (answer, next) ∧
      strings.run (.append key bytes) = some (answer, after) ∧ Stands next after := by
  cases key with
  | none =>
      have absent := stands.fresh table.nextKey le_rfl
      refine ⟨.key (some table.nextKey),
        ⟨Function.update table.records (some table.nextKey) (some [bytes]), table.nextKey + 1⟩,
        ⟨strings.map.insert (some table.nextKey) [bytes].flatten, table.nextKey + 1⟩, ?_, ?_,
        stands.write [bytes] (Nat.le_succ _) ⟨table.nextKey, rfl, Nat.lt_succ_self _⟩⟩
      · simp [runStringOp, stringAppend, getKeyAndBump, absent]
      · simp [StringMap.run, stands.next]
  | some key =>
      refine ⟨_, _, _, rfl, rfl, ?_⟩
      have wrote : Stands ⟨_, table.nextKey⟩ ⟨_, table.nextKey⟩ :=
        stands.write ((table.records key).getD [] ++ [bytes]) le_rfl (known key rfl)
      have joined : ((table.records key).getD [] ++ [bytes]).flatten =
          (strings.map.lookup key).getD [] ++ bytes := by
        rw [← stands.text, StringsTable.text, List.flatten_append, List.flatten_singleton]
        cases table.records key <;> rfl
      rw [joined] at wrote
      rw [← stands.next]
      exact wrote

/-- A string is absent from both, or its text in the map is the concatenation of its records. -/
theorem Stands.cases (stands : Stands table strings) (key : StrKey) :
    (table.records key = none ∧ strings.map.lookup key = none) ∨
      ∃ records, table.records key = some records ∧
        strings.map.lookup key = some records.flatten := by
  have same := stands.text key
  unfold StringsTable.text at same
  cases found : table.records key with
  | none =>
      rw [found] at same
      exact Or.inl ⟨rfl, same.symm⟩
  | some records =>
      rw [found] at same
      exact Or.inr ⟨records, rfl, same.symm⟩

/-- One operation on the table is the same operation on the map. -/
theorem Stands.run (stands : Stands table strings) {op : StringOp}
    (known : HandedOut table.nextKey op) :
    (∃ answer next after, runStringOp table op = .ok (answer, next) ∧
      strings.run op = some (answer, after) ∧ Stands next after) ∨
    ∃ error, runStringOp table op = .error error ∧ strings.run op = none := by
  cases op with
  | append key bytes => exact Or.inl (stands.append known)
  | read key offset len =>
      rcases stands.cases key with ⟨absent, missing⟩ | ⟨records, found, present⟩
      · right
        simp [runStringOp, StringMap.run, stringRead, locateKey, absent, missing, Except.map]
      · left
        have text : table.text key = some records.flatten := by rw [stands.text, present]
        refine ⟨.bytes ((records.flatten.drop offset).take len), table, strings, ?_, ?_, stands⟩
        · rw [runStringOp, stringRead_eq text]
          rfl
        · rw [StringMap.run, present]
          rfl
  | size key =>
      rcases stands.cases key with ⟨absent, missing⟩ | ⟨records, found, present⟩
      · right
        simp [runStringOp, StringMap.run, stringSize, locateKey, absent, missing, Except.map]
      · left
        have text : table.text key = some records.flatten := by rw [stands.text, present]
        refine ⟨.size records.flatten.length, table, strings, ?_, ?_, stands⟩
        · rw [runStringOp, stringSize_eq text]
          rfl
        · rw [StringMap.run, present]
          rfl
  | clear key =>
      rcases stands.cases key with ⟨absent, missing⟩ | ⟨records, found, present⟩
      · right
        simp [runStringOp, StringMap.run, stringClear, absent, missing, Except.map]
      · left
        have wrote := stands.write [[]] le_rfl (known key rfl)
        refine ⟨.done, { table with records := Function.update table.records key (some [[]]) },
          { strings with map := strings.map.insert key [] }, ?_, ?_, ?_⟩
        · simp [runStringOp, stringClear, found, Except.map]
        · simp [StringMap.run, present]
        · rw [← stands.next]
          exact wrote
  | delete key =>
      rcases stands.cases key with ⟨absent, missing⟩ | ⟨records, found, present⟩
      · right
        simp [runStringOp, StringMap.run, stringDelete, absent, missing, Except.map]
      · left
        refine ⟨.done, { table with records := Function.update table.records key none },
          { strings with map := strings.map.erase key }, ?_, ?_, ⟨?_, stands.next, ?_⟩⟩
        · simp [runStringOp, stringDelete, found, Except.map]
        · simp [StringMap.run, present]
        · intro other
          rw [text_update]
          split
          · next same => rw [same, Finmap.lookup_erase, Option.map_none]
          · next distinct => rw [Finmap.lookup_erase_ne distinct, ← stands.text, StringsTable.text]
        · intro n beyond
          dsimp only
          by_cases same : (some n : StrKey) = key
          · rw [same, Function.update_self]
          · rw [Function.update_of_ne same, stands.fresh n beyond]
  | copy key =>
      rcases stands.cases key with ⟨absent, missing⟩ | ⟨records, found, present⟩
      · right
        simp [runStringOp, StringMap.run, stringCopy, getKeyAndBump, absent, missing, Except.map]
      · left
        have fresh := stands.fresh table.nextKey le_rfl
        have wrote := stands.write records (Nat.le_succ table.nextKey)
          ⟨table.nextKey, rfl, Nat.lt_succ_self _⟩
        refine ⟨.key (some table.nextKey),
          ⟨Function.update table.records (some table.nextKey) (some records), table.nextKey + 1⟩,
          ⟨strings.map.insert (some table.nextKey) records.flatten, table.nextKey + 1⟩, ?_, ?_,
          wrote⟩
        · simp [runStringOp, stringCopy, getKeyAndBump, found, fresh, Except.map]
        · simp [StringMap.run, present, stands.next]

/-- Along a run, the table and the map give the same answers. -/
theorem Stands.runAll (ops : List StringOp) :
    ∀ {table : StringsTable} {strings : StringMap}, Stands table strings → KnownKeys table ops →
      (runStringOps table ops).1 = (strings.runAll ops).1 ∧
        Stands (runStringOps table ops).2 (strings.runAll ops).2 := by
  induction ops with
  | nil => exact fun stands _ => ⟨rfl, stands⟩
  | cons op ops ih =>
      intro table strings stands known
      obtain ⟨handed, later⟩ := known
      rcases stands.run handed with ⟨answer, next, after, ran, mapped, kept⟩ | ⟨error, failed, none⟩
      · rw [ran] at later
        obtain ⟨answers, last⟩ := ih kept later
        simp only [runStringOps, StringMap.runAll, ran, mapped]
        exact ⟨by rw [answers], last⟩
      · rw [failed] at later
        obtain ⟨answers, last⟩ := ih stands later
        simp only [runStringOps, StringMap.runAll, failed, none]
        exact ⟨by rw [answers], last⟩

end Refinement

/-- Every run on the table answers as the finite map does and leaves the map's strings behind,
and the next new key names no string of the map. -/
theorem strings_refine_map (ops : List StringOp) (known : KnownKeys emptyStrings ops) :
    let table := (runStringOps emptyStrings ops).2
    let strings := (StringMap.runAll ⟨∅, 0⟩ ops).2
    (runStringOps emptyStrings ops).1 = (StringMap.runAll ⟨∅, 0⟩ ops).1 ∧
      (∀ key, table.text key = strings.map.lookup key) ∧
      strings.map.lookup (some strings.next) = none := by
  have start : Stands emptyStrings ⟨∅, 0⟩ := by
    constructor <;> simp [emptyStrings, StringsTable.text]
  obtain ⟨answers, last⟩ := start.runAll ops known
  refine ⟨answers, last.text, ?_⟩
  rw [← last.text, StringsTable.text, ← last.next, last.fresh _ le_rfl, Option.map_none]

/-- A string of three records, one of them empty, is read across their ends and copied. -/
theorem strings_refine_map_three_records :
    let ops : List StringOp := [.append none [1, 2], .append (some (some 0)) [],
      .append (some (some 0)) [3, 4, 5], .read (some 0) 1 3, .copy (some 0), .clear (some 0),
      .size (some 1), .delete (some 0), .read (some 0) 0 1]
    (runStringOps emptyStrings ops).1 = [some (.key (some 0)), some (.key (some 0)),
      some (.key (some 0)), some (.bytes [2, 3, 4]), some (.key (some 1)), some .done,
      some (.size 5), some .done, none] ∧
    (runStringOps emptyStrings ops).1 = (StringMap.runAll ⟨∅, 0⟩ ops).1 := by
  exact ⟨by decide, (strings_refine_map _ (by decide)).1⟩

end Subversion.Fs
