/-
This file models property lists in memory, where names and values alternate in one chain of cells.
-/

import Subversion.Error
import Subversion.Fs.SkelEquality

namespace Subversion.Fs

open Delta

section Memory

def SkelMemory.put (memory : SkelMemory) (place : Nat) (cell : SkelCell) : SkelMemory where
  cells := Function.update memory.cells place (some cell)
  size := memory.size

def SkelMemory.setNext (memory : SkelMemory) (place : Nat) (next : Option Nat) : Option SkelMemory :=
  (memory.cells place).map fun cell => memory.put place { cell with next := next }

def SkelMemory.setChildren (memory : SkelMemory) (place : Nat) (children : Option Nat) :
    Option SkelMemory :=
  (memory.cells place).map fun cell => memory.put place { cell with children := children }

def SkelMemory.setData (memory : SkelMemory) (place : Nat) (data : Bytes) : Option SkelMemory :=
  (memory.cells place).map fun cell => memory.put place { cell with data := data }

def memAtom (data : Bytes) : SkelCell := ⟨true, data, none, none⟩

/-- The cell is put at a free place, and it becomes the first one of the list. -/
def prepend (memory : SkelMemory) (place : Nat) (cell : SkelCell) (list : Nat) : Option SkelMemory := do
  let found ← memory.cells list
  if found.isAtom then none
  else (memory.put place { cell with next := found.children }).setChildren list (some place)

end Memory

section Lists

variable (memory : SkelMemory)

def matchesAtom (cell : SkelCell) (str : CString) : Bool := cell.isAtom && cell.data = str.val

def allAtoms : Nat → Option Nat → Option Bool
  | _, none => some true
  | 0, some _ => none
  | fuel + 1, some place =>
      match memory.cells place with
      | none => none
      | some cell => if cell.isAtom then allAtoms fuel cell.next else some false

/-- An even number of atoms. -/
def SkelMemory.isValidProplist (fuel list : Nat) : Option Bool :=
  match memory.cells list with
  | none => none
  | some cell =>
      if cell.isAtom then some false
      else
        match listLength memory fuel cell.children with
        | none => none
        | some len => if len % 2 = 0 then allAtoms memory fuel cell.children else some false

/-- The cell of a name and the one of its value. -/
def pairAt (prop : Nat) : Option (SkelCell × Nat × SkelCell) := do
  let thisName ← memory.cells prop
  let place ← thisName.next
  let thisValue ← memory.cells place
  return (thisName, place, thisValue)

def getPropLoop (name : CString) : Nat → Option Nat → Option (Option Bytes)
  | _, none => some none
  | 0, some _ => none
  | fuel + 1, some prop =>
      match pairAt memory prop with
      | none => none
      | some (thisName, _, thisValue) =>
          if matchesAtom thisName name then some (some thisValue.data)
          else getPropLoop name fuel thisValue.next

/-- A name with a null byte is copied up to it, but the key has the length of the name. -/
def makePropHashLoop : Nat → (Bytes → Option Bytes) → Option Nat → Option (Bytes → Option Bytes)
  | _, table, none => some table
  | 0, _, some _ => none
  | fuel + 1, table, some prop =>
      match pairAt memory prop with
      | none => none
      | some (thisName, _, thisValue) =>
          if 0 ∈ thisName.data then none
          else makePropHashLoop fuel (Function.update table thisName.data (some thisValue.data))
            thisValue.next

/-- The list goes around the pair after `prev`, or the value of the pair is changed. -/
def changeProp (list : Nat) (prev : Option Nat) (value : Option Bytes) (place : Nat)
    (following : Option Nat) : Option SkelMemory :=
  match value with
  | some value => memory.setData place value
  | none =>
      match prev with
      | none => memory.setChildren list following
      | some prev => do
          let cell ← memory.cells prev
          let prevValue ← cell.next
          memory.setNext prevValue following

/-- The pair at which the loop stops. -/
def setPropLoop (list : Nat) (name : CString) (value : Option Bytes) :
    Nat → Option Nat → Option Nat → Option (Option Nat × SkelMemory)
  | _, _, none => some (none, memory)
  | 0, _, some _ => none
  | fuel + 1, prev, some prop =>
      match pairAt memory prop with
      | none => none
      | some (thisName, place, thisValue) =>
          if matchesAtom thisName name then
            (changeProp memory list prev value place thisValue.next).map fun changed =>
              (some prop, changed)
          else setPropLoop list name value fuel (some prop) thisValue.next

end Lists

section Operations

variable (memory : SkelMemory) (fuel list : Nat)

def malformed (function : String) : SvnError := ⟨.fsCorrupt, function ++ ": Malformed property list."⟩

/-- The list is checked first. Without a result, the fuel runs out or a place without a cell is read. -/
def withProplist {A : Type} (function : String) (run : Option Nat → Option A) :
    Option (Except SvnError A) :=
  match memory.isValidProplist fuel list with
  | none => none
  | some false => some (.error (malformed function))
  | some true =>
      match memory.cells list with
      | none => none
      | some cell => (run cell.children).map .ok

def svnFsGetProp (name : CString) : Option (Except SvnError (Option Bytes)) :=
  withProplist memory fuel list "svn_fs__get_prop" (getPropLoop memory name fuel)

def svnFsMakePropHash : Option (Except SvnError (Bytes → Option Bytes)) :=
  withProplist memory fuel list "svn_fs__make_prop_hash" (makePropHashLoop memory fuel fun _ => none)

/-- A name that is not found goes to the beginning, together with its value. -/
def prependProp (name : CString) (value : Option Bytes) (namePlace valuePlace : Nat) :
    Option Nat × SkelMemory → Option SkelMemory
  | (some _, memory) => some memory
  | (none, memory) =>
      match value with
      | none => some memory
      | some value => do
          prepend (← prepend memory valuePlace (memAtom value) list) namePlace (memAtom name.val) list

/-- The two cells are those that an addition takes from the pool. -/
def svnFsSetProp (name : CString) (value : Option Bytes) (namePlace valuePlace : Nat) :
    Option (Except SvnError SkelMemory) :=
  withProplist memory fuel list "svn_fs__set_prop" fun children => do
    prependProp list name value namePlace valuePlace
      (← setPropLoop memory list name value fuel none children)

end Operations

section Segments

/-- The atoms with their places, along the links from the first one to the last. -/
def Segment (memory : SkelMemory) : Option Nat → List (Nat × Bytes) → Option Nat → Prop
  | link, [], last => link = last
  | link, atom :: atoms, last => link = some atom.1 ∧ ∃ cell, memory.cells atom.1 = some cell ∧
      cell.isAtom = true ∧ cell.data = atom.2 ∧ Segment memory cell.next atoms last

variable {memory changed : SkelMemory} {link last : Option Nat} {atoms more : List (Nat × Bytes)}

theorem segment_append : ∀ {link}, Segment memory link (atoms ++ more) last ↔
    ∃ middle, Segment memory link atoms middle ∧ Segment memory middle more last := by
  induction atoms with
  | nil =>
      intro link
      simp [Segment]
  | cons atom atoms ih =>
      intro link
      simp only [List.cons_append, Segment, ih]
      constructor
      · rintro ⟨same, cell, found, isAtom, data, middle, before, behind⟩
        exact ⟨middle, ⟨same, cell, found, isAtom, data, before⟩, behind⟩
      · rintro ⟨middle, ⟨same, cell, found, isAtom, data, before⟩, behind⟩
        exact ⟨same, cell, found, isAtom, data, middle, before, behind⟩

/-- A segment that ends tells where it leads. -/
theorem Segment.unique {others : List (Nat × Bytes)} : ∀ {link}, Segment memory link atoms none →
    Segment memory link others none → atoms = others := by
  induction atoms generalizing others with
  | nil =>
      rintro link rfl other
      cases others with
      | nil => rfl
      | cons other others => cases other.1
  | cons atom atoms ih =>
      rintro link ⟨rfl, cell, found, -, data, rest⟩ other
      cases others with
      | nil => cases other
      | cons second others =>
          obtain ⟨same, cell', found', -, data', rest'⟩ := other
          have place := Option.some.inj same
          rw [place] at found
          cases found.symm.trans found'
          rw [Prod.ext place (data.symm.trans data'), ih rest rest']

/-- No place comes twice, since the rest of the segment would go on there as before. -/
theorem Segment.nodup : ∀ {link}, Segment memory link atoms none → (atoms.map Prod.fst).Nodup := by
  induction atoms with
  | nil => exact fun _ => List.nodup_nil
  | cons atom atoms ih =>
      intro link segment
      have whole := segment
      obtain ⟨rfl, cell, found, -, -, rest⟩ := segment
      rw [List.map_cons, List.nodup_cons]
      refine ⟨?_, ih rest⟩
      intro member
      obtain ⟨again, listed, same⟩ := List.mem_map.mp member
      obtain ⟨before, behind, rfl⟩ := List.append_of_mem listed
      obtain ⟨middle, -, later⟩ := segment_append.mp rest
      obtain ⟨rfl, -⟩ := id later
      rw [same] at later
      have lengths := congrArg List.length (Segment.unique whole later)
      simp at lengths
      omega

/-- A segment stays where its cells do. -/
theorem Segment.congr (same : ∀ atom ∈ atoms, changed.cells atom.1 = memory.cells atom.1) :
    ∀ {link}, Segment memory link atoms last → Segment changed link atoms last := by
  induction atoms with
  | nil => exact fun segment => segment
  | cons atom atoms ih =>
      rintro link ⟨rfl, cell, found, isAtom, data, rest⟩
      rw [List.forall_mem_cons] at same
      exact ⟨rfl, cell, same.1.trans found, isAtom, data, ih same.2 rest⟩

theorem Segment.isAtom {link} (segment : Segment memory link atoms last) {atom : Nat × Bytes}
    (member : atom ∈ atoms) : ∃ cell, memory.cells atom.1 = some cell ∧ cell.isAtom = true := by
  induction atoms generalizing link with
  | nil => cases member
  | cons first atoms ih =>
      obtain ⟨rfl, cell, found, isAtom, -, rest⟩ := segment
      rcases List.mem_cons.mp member with rfl | member
      · exact ⟨cell, found, isAtom⟩
      · exact ih rest member

theorem SkelMemory.put_same (memory : SkelMemory) (place : Nat) (cell : SkelCell) :
    (memory.put place cell).cells place = some cell := Function.update_self ..

theorem SkelMemory.put_other (memory : SkelMemory) {place other : Nat} (different : other ≠ place)
    (cell : SkelCell) : (memory.put place cell).cells other = memory.cells other :=
  Function.update_of_ne different ..

/-- No place becomes free and no free one is taken. -/
def SameCells (memory changed : SkelMemory) : Prop :=
  ∀ place, changed.cells place = none ↔ memory.cells place = none

theorem SkelMemory.put_sameCells {place : Nat} {found : SkelCell} (taken : memory.cells place = some found)
    (cell : SkelCell) : SameCells memory (memory.put place cell) := by
  intro other
  by_cases same : other = place
  · rw [same, memory.put_same, taken]
    simp
  · rw [memory.put_other same]

/-- The last atom of a segment is made to lead elsewhere. -/
theorem Segment.relink {atom : Nat × Bytes} {middle : Option Nat} {cell : SkelCell} {link}
    (segment : Segment memory link (atoms ++ [atom]) middle) (once : atom.1 ∉ atoms.map Prod.fst)
    (found : memory.cells atom.1 = some cell) (target : Option Nat) :
    Segment (memory.put atom.1 { cell with next := target }) link (atoms ++ [atom]) target := by
  obtain ⟨before, front, same, other, isOther, isAtom, data, -⟩ := segment_append.mp segment
  cases found.symm.trans isOther
  refine segment_append.mpr ⟨before, front.congr ?_, same, { cell with next := target },
    memory.put_same _ _, isAtom, data, rfl⟩
  intro earlier member
  apply memory.put_other
  intro equal
  exact once (List.mem_map.mpr ⟨earlier, member, equal⟩)

end Segments

section Properties

/-- A property with the places of its two cells. -/
structure PropCell where
  namePlace : Nat
  name : CString
  valuePlace : Nat
  value : Bytes

def atomsOf (props : List PropCell) : List (Nat × Bytes) :=
  props.flatMap fun prop => [(prop.namePlace, prop.name.val), (prop.valuePlace, prop.value)]

/-- A list of the properties, one after the other. -/
def Chained (memory : SkelMemory) (list : Nat) (props : List PropCell) : Prop :=
  ∃ cell, memory.cells list = some cell ∧ cell.isAtom = false ∧
    Segment memory cell.children (atomsOf props) none

/-- A valid list in which no name comes twice. -/
structure PropList (memory : SkelMemory) (list : Nat) (props : List PropCell) : Prop where
  chained : Chained memory list props
  distinct : (props.map PropCell.name).Nodup

/-- In memory, this is a list of atoms. -/
theorem Chained.holds {memory : SkelMemory} {list : Nat} {props : List PropCell}
    (chained : Chained memory list props) :
    Holds memory list (.list ((atomsOf props).map fun atom => .atom atom.2)) := by
  have along (atoms : List (Nat × Bytes)) : ∀ {link}, Segment memory link atoms none →
      HoldsAll memory link (atoms.map fun atom => .atom atom.2) := by
    induction atoms with
    | nil =>
        intro link segment
        rw [List.map_nil, HoldsAll]
        exact segment
    | cons atom atoms ih =>
        rintro link ⟨rfl, cell, found, isAtom, data, rest⟩
        rw [List.map_cons, HoldsAll]
        refine ⟨atom.1, cell, rfl, ?_, found, ih rest⟩
        rw [Holds]
        exact ⟨cell, found, isAtom, data⟩
  obtain ⟨cell, found, notAtom, segment⟩ := chained
  rw [Holds]
  exact ⟨cell, found, notAtom, along _ segment⟩

/-- The finite map for which the list stands. -/
def propOf (props : List PropCell) (name : CString) : Option Bytes :=
  (props.find? fun prop => prop.name = name).map PropCell.value

def changeCells (name : CString) (value : Option Bytes) : List PropCell → List PropCell
  | [] => []
  | prop :: props =>
      if prop.name = name then (value.toList.map fun value => { prop with value := value }) ++ props
      else prop :: changeCells name value props

def setCells (name : CString) (value : Option Bytes) (namePlace valuePlace : Nat)
    (props : List PropCell) : List PropCell :=
  if name ∈ props.map PropCell.name then changeCells name value props
  else (value.toList.map fun value => ⟨namePlace, name, valuePlace, value⟩) ++ props

section Maps

variable {name other : CString} {value : Option Bytes} {props : List PropCell}

theorem propOf_cons (prop : PropCell) (props : List PropCell) (name : CString) :
    propOf (prop :: props) name = if prop.name = name then some prop.value else propOf props name := by
  rw [propOf, List.find?_cons]
  by_cases same : prop.name = name
  · simp [same]
  · simp [same, propOf]

theorem propOf_eq_none (absent : name ∉ props.map PropCell.name) : propOf props name = none := by
  rw [propOf, Option.map_eq_none_iff, List.find?_eq_none]
  intro prop member same
  exact absent (List.mem_map.mpr ⟨prop, member, of_decide_eq_true same⟩)

theorem mem_changeCells (member : other ∈ (changeCells name value props).map PropCell.name) :
    other ∈ props.map PropCell.name := by
  induction props with
  | nil => exact member
  | cons prop props ih =>
      rw [changeCells] at member
      split at member
      · cases value with
        | none => exact List.mem_cons_of_mem _ member
        | some value => exact member
      · rcases List.mem_cons.mp member with rfl | member
        · exact List.mem_cons_self
        · exact List.mem_cons_of_mem _ (ih member)

theorem changeCells_nodup (distinct : (props.map PropCell.name).Nodup) :
    ((changeCells name value props).map PropCell.name).Nodup := by
  induction props with
  | nil => exact distinct
  | cons prop props ih =>
      have parts := List.nodup_cons.mp distinct
      rw [changeCells]
      split
      · cases value with
        | none => exact parts.2
        | some value => exact distinct
      · exact List.nodup_cons.mpr ⟨fun member => parts.1 (mem_changeCells member), ih parts.2⟩

theorem propOf_changeCells (distinct : (props.map PropCell.name).Nodup)
    (member : name ∈ props.map PropCell.name) :
    propOf (changeCells name value props) = Function.update (propOf props) name value := by
  induction props with
  | nil => cases member
  | cons prop props ih =>
      obtain ⟨absent, distinct⟩ := List.nodup_cons.mp distinct
      funext other
      rw [changeCells]
      by_cases here : prop.name = name
      · subst here
        by_cases same : other = prop.name
        · subst same
          cases value with
          | none => simp [propOf_eq_none absent]
          | some value => simp [propOf_cons]
        · cases value with
          | none => simp [propOf_cons, same, Ne.symm same]
          | some value => simp [propOf_cons, same, Ne.symm same]
      · have later : name ∈ props.map PropCell.name := by
          rcases List.mem_cons.mp member with same | later
          · exact absurd same.symm here
          · exact later
        rw [if_neg here, propOf_cons, ih distinct later]
        by_cases same : other = name
        · subst same
          simp [here]
        · simp [same, propOf_cons]

/-- The list stands for the changed map, and the names stay distinct. -/
theorem setCells_spec (namePlace valuePlace : Nat) (distinct : (props.map PropCell.name).Nodup) :
    propOf (setCells name value namePlace valuePlace props) = Function.update (propOf props) name value ∧
      ((setCells name value namePlace valuePlace props).map PropCell.name).Nodup := by
  rw [setCells]
  split
  · next member => exact ⟨propOf_changeCells distinct member, changeCells_nodup distinct⟩
  · next absent =>
      cases value with
      | none =>
          refine ⟨?_, distinct⟩
          have stays : Function.update (propOf props) name none = propOf props := by
            rw [← propOf_eq_none absent, Function.update_eq_self]
          rw [stays]
          rfl
      | some value =>
          refine ⟨?_, List.nodup_cons.mpr ⟨absent, distinct⟩⟩
          funext other
          by_cases same : other = name
          · subst same
            simp [propOf_cons]
          · simp [propOf_cons, same, Ne.symm same]

end Maps

end Properties

section Loops

variable {memory : SkelMemory} {list fuel : Nat} {name : CString} {value : Option Bytes}
  {prop : PropCell} {props before : List PropCell} {link : Option Nat}

theorem atomsOf_cons (prop : PropCell) (props : List PropCell) :
    atomsOf (prop :: props) =
      (prop.namePlace, prop.name.val) :: (prop.valuePlace, prop.value) :: atomsOf props := rfl

theorem atomsOf_append (before props : List PropCell) :
    atomsOf (before ++ props) = atomsOf before ++ atomsOf props := List.flatMap_append

/-- What the loops find at the first property of a segment. -/
theorem pairAt_of_segment (segment : Segment memory link (atomsOf (prop :: props)) none) :
    link = some prop.namePlace ∧ ∃ thisName thisValue,
      pairAt memory prop.namePlace = some (thisName, prop.valuePlace, thisValue) ∧
      memory.cells prop.namePlace = some thisName ∧ memory.cells prop.valuePlace = some thisValue ∧
      thisName.data = prop.name.val ∧ thisValue.data = prop.value ∧
      (∀ name, matchesAtom thisName name = true ↔ prop.name = name) ∧
      Segment memory thisValue.next (atomsOf props) none := by
  obtain ⟨rfl, thisName, isName, nameAtom, nameData, next, thisValue, isValue, -, valueData, rest⟩ := segment
  refine ⟨rfl, thisName, thisValue, ?_, isName, isValue, nameData, valueData, ?_, rest⟩
  · simp [pairAt, isName, next, isValue]
  · intro name
    rw [matchesAtom, nameAtom, nameData, Bool.true_and, decide_eq_true_eq]
    exact Subtype.ext_iff.symm

theorem listLength_segment (atoms : List (Nat × Bytes)) : ∀ {link fuel}, Segment memory link atoms none →
    atoms.length ≤ fuel → listLength memory fuel link = some atoms.length := by
  induction atoms with
  | nil =>
      rintro link fuel rfl -
      cases fuel <;> rfl
  | cons atom atoms ih =>
      rintro link fuel ⟨rfl, cell, found, -, -, rest⟩ enough
      rw [List.length_cons] at enough
      obtain ⟨fuel, rfl⟩ : ∃ less, fuel = less + 1 := ⟨fuel - 1, by omega⟩
      rw [listLength, found]
      dsimp only
      rw [ih rest (by omega)]
      rfl

theorem allAtoms_segment (atoms : List (Nat × Bytes)) : ∀ {link fuel}, Segment memory link atoms none →
    atoms.length ≤ fuel → allAtoms memory fuel link = some true := by
  induction atoms with
  | nil =>
      rintro link fuel rfl -
      cases fuel <;> rfl
  | cons atom atoms ih =>
      rintro link fuel ⟨rfl, cell, found, isAtom, -, rest⟩ enough
      rw [List.length_cons] at enough
      obtain ⟨fuel, rfl⟩ : ∃ less, fuel = less + 1 := ⟨fuel - 1, by omega⟩
      rw [allAtoms, found]
      dsimp only
      rw [if_pos isAtom, ih rest (by omega)]

theorem atomsOf_length (props : List PropCell) : (atomsOf props).length = 2 * props.length := by
  induction props with
  | nil => rfl
  | cons prop props ih =>
      rw [atomsOf_cons, List.length_cons, List.length_cons, List.length_cons, ih]
      omega

/-- A chain of properties is a valid list. -/
theorem isValidProplist_chained (chained : Chained memory list props) (enough : 2 * props.length ≤ fuel) :
    memory.isValidProplist fuel list = some true := by
  obtain ⟨cell, found, notAtom, segment⟩ := chained
  rw [← atomsOf_length] at enough
  have even : (atomsOf props).length % 2 = 0 := by
    rw [atomsOf_length]
    omega
  rw [SkelMemory.isValidProplist, found]
  dsimp only
  rw [notAtom, listLength_segment _ segment enough, allAtoms_segment _ segment enough]
  simp [even]

theorem withProplist_chained {A : Type} {cell : SkelCell} (found : memory.cells list = some cell)
    (chained : Chained memory list props) (enough : 2 * props.length ≤ fuel) (function : String)
    (run : Option Nat → Option A) :
    withProplist memory fuel list function run = (run cell.children).map .ok := by
  rw [withProplist, isValidProplist_chained chained enough, found]

theorem getPropLoop_segment (name : CString) (props : List PropCell) : ∀ {link fuel},
    Segment memory link (atomsOf props) none → props.length ≤ fuel →
      getPropLoop memory name fuel link = some (propOf props name) := by
  induction props with
  | nil =>
      rintro link fuel rfl -
      cases fuel <;> rfl
  | cons prop props ih =>
      intro link fuel segment enough
      obtain ⟨rfl, thisName, thisValue, pair, -, -, -, data, isThis, rest⟩ := pairAt_of_segment segment
      rw [List.length_cons] at enough
      obtain ⟨fuel, rfl⟩ : ∃ less, fuel = less + 1 := ⟨fuel - 1, by omega⟩
      rw [getPropLoop, pair, propOf_cons]
      dsimp only
      by_cases same : prop.name = name
      · rw [if_pos ((isThis name).mpr same), if_pos same, data]
      · rw [if_neg (mt (isThis name).mp same), if_neg same, ih rest (by omega)]

/-- What the table maps the names to, and nothing else. -/
def IsTable (props : List PropCell) (table : Bytes → Option Bytes) : Prop :=
  ∀ bytes, table bytes = if name : (0 : UInt8) ∉ bytes then propOf props ⟨bytes, name⟩ else none

/-- No later property has the name of an earlier one, so no value is written twice. -/
theorem makePropHashLoop_segment (props : List PropCell) : ∀ {link fuel} (table : Bytes → Option Bytes),
    Segment memory link (atomsOf props) none → (props.map PropCell.name).Nodup → props.length ≤ fuel →
      ∃ hash, makePropHashLoop memory fuel table link = some hash ∧
        ∀ bytes, hash bytes = if name : (0 : UInt8) ∉ bytes then (propOf props ⟨bytes, name⟩).or (table bytes)
          else table bytes := by
  induction props with
  | nil =>
      rintro link fuel table rfl - -
      refine ⟨table, ?_, ?_⟩
      · cases fuel <;> rfl
      · intro bytes
        split <;> rfl
  | cons prop props ih =>
      intro link fuel table segment distinct enough
      obtain ⟨rfl, thisName, thisValue, pair, -, -, nameData, data, -, rest⟩ := pairAt_of_segment segment
      obtain ⟨absent, distinct⟩ := List.nodup_cons.mp distinct
      rw [List.length_cons] at enough
      obtain ⟨fuel, rfl⟩ : ∃ less, fuel = less + 1 := ⟨fuel - 1, by omega⟩
      obtain ⟨hash, made, reads⟩ :=
        ih (Function.update table prop.name.val (some thisValue.data)) rest distinct (Nat.le_of_succ_le_succ enough)
      refine ⟨hash, ?_, ?_⟩
      · rw [makePropHashLoop, pair]
        dsimp only
        rw [nameData, if_neg prop.name.property]
        exact made
      · intro bytes
        rw [reads bytes, data]
        by_cases isName : (0 : UInt8) ∉ bytes
        · rw [dif_pos isName, dif_pos isName, propOf_cons]
          by_cases same : prop.name = ⟨bytes, isName⟩
          · rw [if_pos same, ← same, propOf_eq_none absent, same, Function.update_self]
            rfl
          · rw [if_neg same, Function.update_of_ne]
            exact fun equal => same (Subtype.ext equal.symm)
        · rw [dif_neg isName, dif_neg isName, Function.update_of_ne]
          rintro rfl
          exact isName prop.name.property

end Loops

section Changes

variable {memory : SkelMemory} {list fuel : Nat} {name : CString} {value : Option Bytes}
  {prop : PropCell} {props before : List PropCell} {link : Option Nat}

/-- The list itself stands at none of the places of its elements. -/
theorem ne_of_segment {cell : SkelCell} {atoms : List (Nat × Bytes)} {last : Option Nat}
    (found : memory.cells list = some cell) (notAtom : cell.isAtom = false)
    (segment : Segment memory link atoms last) {atom : Nat × Bytes} (member : atom ∈ atoms) :
    atom.1 ≠ list := by
  intro same
  obtain ⟨other, isOther, isAtom⟩ := segment.isAtom member
  rw [same, found] at isOther
  cases isOther
  rw [notAtom] at isAtom
  cases isAtom

/-- The cell of a value is neither the one of its name nor in another property. -/
theorem valuePlace_ne (segment : Segment memory link (atomsOf (before ++ prop :: props)) none) :
    (∀ atom ∈ atomsOf before, atom.1 ≠ prop.valuePlace) ∧ prop.namePlace ≠ prop.valuePlace ∧
      ∀ atom ∈ atomsOf props, atom.1 ≠ prop.valuePlace := by
  have nodup := segment.nodup
  rw [atomsOf_append, atomsOf_cons, List.map_append, List.map_cons, List.map_cons,
    List.nodup_append] at nodup
  obtain ⟨-, inside, apart⟩ := nodup
  obtain ⟨notName, inside⟩ := List.nodup_cons.mp inside
  obtain ⟨notValue, -⟩ := List.nodup_cons.mp inside
  refine ⟨?_, ?_, ?_⟩
  · intro atom member
    exact apart _ (List.mem_map_of_mem member) _ (List.mem_cons_of_mem _ List.mem_cons_self)
  · intro same
    exact notName (same ▸ List.mem_cons_self)
  · intro atom member same
    apply notValue
    rw [← same]
    exact List.mem_map.mpr ⟨atom, member, rfl⟩

/-- The value of a property is changed in place. -/
theorem setData_chained (chained : Chained memory list (before ++ prop :: props)) (data : Bytes) :
    ∃ changed, memory.setData prop.valuePlace data = some changed ∧
      Chained changed list (before ++ { prop with value := data } :: props) ∧ SameCells memory changed := by
  obtain ⟨cell, found, notAtom, segment⟩ := chained
  obtain ⟨notBefore, notName, notBehind⟩ := valuePlace_ne segment
  have listed : (prop.valuePlace, prop.value) ∈ atomsOf (before ++ prop :: props) := by
    rw [atomsOf_append, atomsOf_cons]
    exact List.mem_append_right _ (List.mem_cons_of_mem _ List.mem_cons_self)
  have notList : prop.valuePlace ≠ list := ne_of_segment found notAtom segment listed
  rw [atomsOf_append] at segment
  obtain ⟨middle, front, back⟩ := segment_append.mp segment
  obtain ⟨rfl, thisName, isName, nameAtom, nameData, next, thisValue, isValue, valueAtom, -, rest⟩ := back
  refine ⟨memory.put prop.valuePlace { thisValue with data := data }, ?_, ⟨cell, ?_, notAtom, ?_⟩,
    SkelMemory.put_sameCells isValue _⟩
  · rw [SkelMemory.setData, isValue]
    rfl
  · exact (memory.put_other (Ne.symm notList) _).trans found
  · rw [atomsOf_append]
    refine segment_append.mpr ⟨_, front.congr fun atom member => memory.put_other (notBefore atom member) _,
      rfl, thisName, (memory.put_other notName _).trans isName, nameAtom, nameData, next,
      { thisValue with data := data }, memory.put_same _ _, valueAtom, rfl,
      rest.congr fun atom member => memory.put_other (notBehind atom member) _⟩

/-- The list goes around a property. -/
theorem unlink_chained (chained : Chained memory list (before ++ prop :: props)) {thisName thisValue : SkelCell}
    (pair : pairAt memory prop.namePlace = some (thisName, prop.valuePlace, thisValue)) :
    ∃ changed, changeProp memory list (before.getLast?.map PropCell.namePlace) none prop.valuePlace
        thisValue.next = some changed ∧
      Chained changed list (before ++ props) ∧ SameCells memory changed := by
  obtain ⟨cell, found, notAtom, segment⟩ := chained
  have whole := segment
  rw [atomsOf_append] at segment
  obtain ⟨middle, front, back⟩ := segment_append.mp segment
  obtain ⟨rfl, _, _, again, -, -, -, -, -, rest⟩ := pairAt_of_segment back
  cases again.symm.trans pair
  rcases List.eq_nil_or_concat before with rfl | ⟨earlier, prev, rfl⟩
  · refine ⟨memory.put list { cell with children := thisValue.next }, ?_,
      ⟨_, memory.put_same _ _, notAtom, rest.congr ?_⟩, SkelMemory.put_sameCells found _⟩
    · simp [changeProp, SkelMemory.setChildren, found]
    · intro atom member
      exact memory.put_other (ne_of_segment found notAtom rest member) _
  · rw [List.concat_eq_append] at front whole ⊢
    have split : atomsOf (earlier ++ [prev]) =
        (atomsOf earlier ++ [(prev.namePlace, prev.name.val)]) ++ [(prev.valuePlace, prev.value)] := by
      simp [atomsOf]
    rw [List.append_assoc, List.singleton_append] at whole
    have listed : (prev.valuePlace, prev.value) ∈ atomsOf (earlier ++ prev :: prop :: props) := by
      rw [atomsOf_append, atomsOf_cons]
      exact List.mem_append_right _ (List.mem_cons_of_mem _ List.mem_cons_self)
    have notList : prev.valuePlace ≠ list := ne_of_segment found notAtom whole listed
    obtain ⟨notBefore, notName, notBehind⟩ := valuePlace_ne whole
    rw [split] at front
    obtain ⟨link, names, same, prevValue, isPrev, -, -, -⟩ := segment_append.mp front
    obtain ⟨_, -, -, prevName, isName, -, -, next⟩ := segment_append.mp names
    have once : prev.valuePlace ∉ (atomsOf earlier ++ [(prev.namePlace, prev.name.val)]).map Prod.fst := by
      rw [List.map_append, List.mem_append, not_or]
      refine ⟨?_, ?_⟩
      · intro member
        obtain ⟨atom, isAtom, equal⟩ := List.mem_map.mp member
        exact notBefore atom isAtom equal
      · rw [List.map_singleton, List.mem_singleton]
        exact Ne.symm notName
    refine ⟨memory.put prev.valuePlace { prevValue with next := thisValue.next }, ?_,
      ⟨cell, (memory.put_other (Ne.symm notList) _).trans found, notAtom, ?_⟩,
      SkelMemory.put_sameCells isPrev _⟩
    · have isNext : prevName.next = some prev.valuePlace := Eq.trans next same
      simp [changeProp, isName, isNext, SkelMemory.setNext, isPrev]
    · rw [atomsOf_append, split]
      refine segment_append.mpr ⟨thisValue.next, front.relink once isPrev thisValue.next, rest.congr ?_⟩
      intro atom member
      apply memory.put_other
      apply notBehind
      rw [atomsOf_cons]
      exact List.mem_cons_of_mem _ (List.mem_cons_of_mem _ member)

/-- The loop changes the property that it looks for. What is before it has other names. -/
theorem setPropLoop_segment (name : CString) (value : Option Bytes) (props : List PropCell) :
    ∀ {before link fuel}, Chained memory list (before ++ props) →
      Segment memory link (atomsOf props) none → props.length ≤ fuel →
      ∃ stopped changed, setPropLoop memory list name value fuel
          (before.getLast?.map PropCell.namePlace) link = some (stopped, changed) ∧
        (stopped = none ↔ name ∉ props.map PropCell.name) ∧
        Chained changed list (before ++ changeCells name value props) ∧ SameCells memory changed := by
  induction props with
  | nil =>
      rintro before link fuel chained rfl -
      refine ⟨none, memory, ?_, ?_, chained, fun _ => Iff.rfl⟩
      · cases fuel <;> rfl
      · simp
  | cons prop props ih =>
      intro before link fuel chained segment enough
      obtain ⟨rfl, thisName, thisValue, pair, -, -, -, -, isThis, rest⟩ := pairAt_of_segment segment
      rw [List.length_cons] at enough
      obtain ⟨fuel, rfl⟩ : ∃ less, fuel = less + 1 := ⟨fuel - 1, by omega⟩
      rw [setPropLoop, pair, changeCells]
      dsimp only
      by_cases same : prop.name = name
      · rw [if_pos ((isThis name).mpr same), if_pos same]
        have found : name ∈ (prop :: props).map PropCell.name := by
          rw [← same]
          exact List.mem_cons_self
        have changes : ∃ changed, changeProp memory list (before.getLast?.map PropCell.namePlace) value
            prop.valuePlace thisValue.next = some changed ∧
              Chained changed list (before ++
                ((value.toList.map fun value => { prop with value := value }) ++ props)) ∧
              SameCells memory changed := by
          cases value with
          | none => exact unlink_chained chained pair
          | some value => exact setData_chained chained value
        obtain ⟨changed, done, after, cells⟩ := changes
        refine ⟨some prop.namePlace, changed, ?_, ?_, after, cells⟩
        · rw [done]
          rfl
        · exact ⟨fun impossible => (Option.some_ne_none _ impossible).elim, fun absent => absurd found absent⟩
      · rw [if_neg (mt (isThis name).mp same), if_neg same]
        have next : Chained memory list ((before ++ [prop]) ++ props) := by
          rw [List.append_assoc]
          exact chained
        obtain ⟨stopped, changed, ran, stops, after, cells⟩ := ih next rest (Nat.le_of_succ_le_succ enough)
        rw [List.getLast?_concat, Option.map_some] at ran
        rw [List.append_assoc, List.singleton_append] at after
        refine ⟨stopped, changed, ran, ?_, after, cells⟩
        rw [stops, List.map_cons, List.mem_cons, not_or]
        exact ⟨fun absent => ⟨Ne.symm same, absent⟩, fun absent => absent.2⟩

/-- A free cell becomes the first one of the list. -/
theorem prepend_segment {cell : SkelCell} {atoms : List (Nat × Bytes)} {place : Nat} (data : Bytes)
    (found : memory.cells list = some cell) (notAtom : cell.isAtom = false)
    (segment : Segment memory cell.children atoms none) (free : memory.cells place = none) :
    ∃ changed first, prepend memory place (memAtom data) list = some changed ∧
      changed.cells list = some first ∧ first.isAtom = false ∧
      Segment changed first.children ((place, data) :: atoms) none ∧
      ∀ other, other ≠ place → memory.cells other = none → changed.cells other = none := by
  have notList : list ≠ place := by
    rintro rfl
    rw [free] at found
    cases found
  have kept : (memory.put place { memAtom data with next := cell.children }).cells list = some cell :=
    (memory.put_other notList _).trans found
  refine ⟨(memory.put place { memAtom data with next := cell.children }).put list
    { cell with children := some place }, { cell with children := some place }, ?_,
    SkelMemory.put_same _ _ _, notAtom, ?_, ?_⟩
  · simp [prepend, found, notAtom, SkelMemory.setChildren, kept]
  · refine ⟨rfl, { memAtom data with next := cell.children }, ?_, rfl, rfl, segment.congr ?_⟩
    · exact (SkelMemory.put_other _ (Ne.symm notList) _).trans (memory.put_same _ _)
    · intro atom member
      have taken : atom.1 ≠ place := by
        rintro same
        obtain ⟨other, isOther, -⟩ := segment.isAtom member
        rw [same, free] at isOther
        cases isOther
      rw [SkelMemory.put_other _ (ne_of_segment found notAtom segment member), memory.put_other taken]
  · intro other different none
    have notRoot : other ≠ list := by
      rintro rfl
      rw [none] at found
      cases found
    rw [SkelMemory.put_other _ notRoot, memory.put_other different, none]

theorem changeCells_absent (absent : name ∉ props.map PropCell.name) :
    changeCells name value props = props := by
  induction props with
  | nil => rfl
  | cons prop props ih =>
      rw [List.map_cons, List.mem_cons, not_or] at absent
      rw [changeCells, if_neg (Ne.symm absent.1), ih absent.2]

end Changes

section Runs

variable {memory : SkelMemory} {list : Nat} {props : List PropCell}

/-- A call with the two cells that it may take from the pool. -/
structure PropCall where
  name : CString
  value : Option Bytes
  namePlace : Nat
  valuePlace : Nat

def PropCall.places (call : PropCall) : List Nat := [call.namePlace, call.valuePlace]

/-- The pool gives no place twice, and none that is taken. -/
def Fresh (memory : SkelMemory) (calls : List PropCall) : Prop :=
  (calls.flatMap PropCall.places).Nodup ∧ ∀ place ∈ calls.flatMap PropCall.places, memory.cells place = none

def runCall (fuel list : Nat) (memory : SkelMemory) (call : PropCall) : Option SkelMemory :=
  match svnFsSetProp memory fuel list call.name call.value call.namePlace call.valuePlace with
  | some (.ok changed) => some changed
  | _ => none

/-- The calls, each of which has to succeed. -/
def runCalls (fuel list : Nat) (memory : SkelMemory) (calls : List PropCall) : Option SkelMemory :=
  calls.foldlM (runCall fuel list) memory

/-- The map after the calls. -/
def mapAfter (map : CString → Option Bytes) (calls : List PropCall) : CString → Option Bytes :=
  calls.foldl (fun map call => Function.update map call.name call.value) map

/-- The operations read the list as the map. -/
structure ServesMap (memory : SkelMemory) (fuel list : Nat) (map : CString → Option Bytes) : Prop where
  valid : memory.isValidProplist fuel list = some true
  get : ∀ name, svnFsGetProp memory fuel list name = some (.ok (map name))
  hash : ∃ table, svnFsMakePropHash memory fuel list = some (.ok table) ∧
    ∀ bytes, table bytes = if name : (0 : UInt8) ∉ bytes then map ⟨bytes, name⟩ else none

theorem PropList.serves (holds : PropList memory list props) {fuel : Nat} (enough : 2 * props.length ≤ fuel) :
    ServesMap memory fuel list (propOf props) := by
  obtain ⟨cell, found, notAtom, segment⟩ := id holds.chained
  refine ⟨isValidProplist_chained holds.chained enough, ?_, ?_⟩
  · intro name
    rw [svnFsGetProp, withProplist_chained found holds.chained enough,
      getPropLoop_segment name props segment (by omega)]
    rfl
  · obtain ⟨hash, made, reads⟩ :=
      makePropHashLoop_segment props (fun _ => none) segment holds.distinct (by omega : props.length ≤ fuel)
    refine ⟨hash, ?_, ?_⟩
    · rw [svnFsMakePropHash, withProplist_chained found holds.chained enough, made]
      rfl
    · intro bytes
      rw [reads bytes]
      split <;> simp

/-- A call changes the list as the map is changed. -/
theorem PropList.setProp (holds : PropList memory list props) {fuel : Nat} (enough : 2 * props.length ≤ fuel)
    (call : PropCall) (different : call.namePlace ≠ call.valuePlace)
    (freeName : memory.cells call.namePlace = none) (freeValue : memory.cells call.valuePlace = none) :
    ∃ changed, runCall fuel list memory call = some changed ∧
      PropList changed list (setCells call.name call.value call.namePlace call.valuePlace props) ∧
      ∀ place ∉ call.places, memory.cells place = none → changed.cells place = none := by
  obtain ⟨cell, found, notAtom, segment⟩ := id holds.chained
  have distinct : ((setCells call.name call.value call.namePlace call.valuePlace props).map
      PropCell.name).Nodup := (setCells_spec call.namePlace call.valuePlace holds.distinct).2
  have whole : Chained memory list ([] ++ props) := holds.chained
  obtain ⟨stopped, changed, ran, stops, after, cells⟩ :=
    setPropLoop_segment call.name call.value props whole segment (by omega : props.length ≤ fuel)
  have setting : svnFsSetProp memory fuel list call.name call.value call.namePlace call.valuePlace =
      (prependProp list call.name call.value call.namePlace call.valuePlace (stopped, changed)).map .ok := by
    rw [svnFsSetProp, withProplist_chained found holds.chained enough]
    rw [show setPropLoop memory list call.name call.value fuel none cell.children =
      some (stopped, changed) from ran]
    rfl
  rw [List.nil_append] at after
  rw [runCall, setting]
  by_cases member : call.name ∈ props.map PropCell.name
  · have found : stopped ≠ none := fun none => stops.mp none member
    obtain ⟨place, rfl⟩ := Option.ne_none_iff_exists'.mp found
    rw [setCells, if_pos member] at distinct ⊢
    exact ⟨changed, rfl, ⟨after, distinct⟩, fun place _ free => (cells place).mpr free⟩
  · rw [stops.mpr member]
    rw [setCells, if_neg member] at distinct ⊢
    rw [changeCells_absent member] at after
    cases value : call.value with
    | none =>
        rw [value] at distinct
        exact ⟨changed, rfl, ⟨after, distinct⟩, fun place _ free => (cells place).mpr free⟩
    | some data =>
        rw [value] at distinct
        obtain ⟨cell₁, found₁, notAtom₁, segment₁⟩ := after
        obtain ⟨middle, cell₂, prepended, found₂, notAtom₂, segment₂, frees₂⟩ :=
          prepend_segment data found₁ notAtom₁ segment₁ ((cells _).mpr freeValue)
        obtain ⟨next, cell₃, again, found₃, notAtom₃, segment₃, frees₃⟩ :=
          prepend_segment call.name.val found₂ notAtom₂ segment₂
            (frees₂ _ different ((cells _).mpr freeName))
        refine ⟨next, ?_, ⟨⟨cell₃, found₃, notAtom₃, segment₃⟩, distinct⟩, ?_⟩
        · simp [prependProp, prepended, again]
        · intro place other free
          rw [PropCall.places, List.mem_cons, List.mem_singleton, not_or] at other
          exact frees₃ place other.1 (frees₂ place other.2 ((cells place).mpr free))

theorem setCells_length (name : CString) (value : Option Bytes) (namePlace valuePlace : Nat) :
    (setCells name value namePlace valuePlace props).length ≤ props.length + 1 := by
  have changes : (changeCells name value props).length ≤ props.length := by
    induction props with
    | nil => exact le_rfl
    | cons prop props ih =>
        rw [changeCells]
        split
        · cases value <;> simp
        · exact Nat.succ_le_succ ih
  rw [setCells]
  split
  · exact Nat.le_succ_of_le changes
  · cases value <;> simp

/-- Any calls change the list as the map is changed. -/
theorem PropList.runCalls (calls : List PropCall) : ∀ {memory props} (_ : PropList memory list props) {fuel},
    2 * (props.length + calls.length) ≤ fuel → Fresh memory calls →
      ∃ final after, runCalls fuel list memory calls = some final ∧ PropList final list after ∧
        after.length ≤ props.length + calls.length ∧ propOf after = mapAfter (propOf props) calls := by
  induction calls with
  | nil => exact fun holds _ _ _ => ⟨_, _, rfl, holds, le_rfl, rfl⟩
  | cons call calls ih =>
      intro memory props holds fuel enough fresh
      obtain ⟨nodup, free⟩ := fresh
      rw [List.flatMap_cons, List.nodup_append] at nodup
      obtain ⟨pair, later, apart⟩ := nodup
      rw [List.flatMap_cons] at free
      rw [List.length_cons] at enough
      have different : call.namePlace ≠ call.valuePlace := by
        simpa [PropCall.places] using pair
      obtain ⟨changed, ran, after, frees⟩ := holds.setProp (by omega : 2 * props.length ≤ fuel) call different
        (free _ (List.mem_append_left _ List.mem_cons_self))
        (free _ (List.mem_append_left _ (List.mem_cons_of_mem _ List.mem_cons_self)))
      have shorter := @setCells_length props call.name call.value call.namePlace call.valuePlace
      have freshLater : Fresh changed calls := by
        refine ⟨later, ?_⟩
        intro place member
        apply frees place
        · exact fun here => apart place here place member rfl
        · exact free place (List.mem_append_right _ member)
      have within : 2 * ((setCells call.name call.value call.namePlace call.valuePlace props).length +
          calls.length) ≤ fuel := by omega
      obtain ⟨final, last, rest, holdsLast, bound, map⟩ := ih after within freshLater
      refine ⟨final, last, ?_, holdsLast, ?_, ?_⟩
      · rw [Fs.runCalls, List.foldlM_cons, ran]
        exact rest
      · rw [List.length_cons]
        omega
      · rw [map, (setCells_spec call.namePlace call.valuePlace holds.distinct).1]
        rfl

/-- A property list behaves as a finite map under any calls. -/
theorem propList_isMap (memory : SkelMemory) (list : Nat) (props : List PropCell) (calls : List PropCall)
    (holds : PropList memory list props) (fresh : Fresh memory calls) :
    ∃ enough, ∀ fuel, enough ≤ fuel → ∃ final after, runCalls fuel list memory calls = some final ∧
      PropList final list after ∧ ServesMap final fuel list (mapAfter (propOf props) calls) := by
  refine ⟨2 * (props.length + calls.length), fun fuel enough => ?_⟩
  obtain ⟨final, after, ran, holdsAfter, bound, map⟩ := holds.runCalls calls enough fresh
  refine ⟨final, after, ran, holdsAfter, ?_⟩
  rw [← map]
  exact holdsAfter.serves (by omega)

/-- One cell, which is the empty list. -/
def emptyProplist : SkelMemory where
  cells := fun place => if place = 0 then some ⟨false, [], none, none⟩ else none
  size := 1

/-- A property is set, changed and deleted, and another one stays. -/
theorem propList_isMap_empty :
    ∃ enough, ∀ fuel, enough ≤ fuel → ∃ final after,
      runCalls fuel 0 emptyProplist [⟨⟨[97], by decide⟩, some [1], 1, 2⟩, ⟨⟨[98], by decide⟩, some [], 3, 4⟩,
        ⟨⟨[97], by decide⟩, some [0], 5, 6⟩, ⟨⟨[97], by decide⟩, none, 7, 8⟩] = some final ∧
      PropList final 0 after ∧
      ServesMap final fuel 0 (mapAfter (propOf []) [⟨⟨[97], by decide⟩, some [1], 1, 2⟩,
        ⟨⟨[98], by decide⟩, some [], 3, 4⟩, ⟨⟨[97], by decide⟩, some [0], 5, 6⟩,
        ⟨⟨[97], by decide⟩, none, 7, 8⟩]) :=
  propList_isMap emptyProplist 0 [] _ ⟨⟨_, rfl, rfl, rfl⟩, List.nodup_nil⟩ ⟨by decide, by decide⟩

end Runs

end Subversion.Fs
