/-
This file models the comparison of skels in memory, where a list is a chain of cells.
-/

import Subversion.Fs.Skel

namespace Subversion.Fs

open Delta

/-- One `skel_t`. A cell without `children` or without `next` ends its chain. -/
structure SkelCell where
  isAtom : Bool
  data : Bytes
  children : Option Nat
  next : Option Nat
  deriving DecidableEq, Repr

/-- The cells by their addresses. A pointer to a cell goes forward by the size of one. -/
structure SkelMemory where
  cells : Nat → Option SkelCell
  size : Nat

/-- The comparison stops at a null byte. Both strings have the same length. -/
def strncmpEqual : Bytes → Bytes → Bool
  | first :: firsts, second :: seconds =>
      if first ≠ second then false
      else if first = 0 then true
      else strncmpEqual firsts seconds
  | _, _ => true

/-- Each unit of fuel follows one pointer. -/
def listLength (memory : SkelMemory) : Nat → Option Nat → Option Nat
  | _, none => some 0
  | 0, some _ => none
  | fuel + 1, some place =>
      match memory.cells place with
      | none => none
      | some cell => (listLength memory fuel cell.next).map (· + 1)

/-- The elements are looked for one behind the other, and not through their pointers. -/
def elementsAreEqual (equal : Nat → Nat → Option Bool) (size : Nat) :
    Nat → Nat → Nat → Option Bool
  | 0, _, _ => some true
  | count + 1, first, second =>
      match equal first second with
      | none => none
      | some false => some false
      | some true => elementsAreEqual equal size count (first + size) (second + size)

/-- Without a result, the fuel runs out or a place without a skel is read. -/
def skelsAreEqual (memory : SkelMemory) : Nat → Nat → Nat → Option Bool
  | 0, _, _ => none
  | fuel + 1, first, second =>
      if first = second then some true
      else
        match memory.cells first, memory.cells second with
        | some one, some two =>
            if one.isAtom && two.isAtom then
              some (one.data.length = two.data.length && strncmpEqual one.data two.data)
            else if !one.isAtom && !two.isAtom then
              match listLength memory fuel one.children, listLength memory fuel two.children with
              | some length, some other =>
                  if length = other then
                    elementsAreEqual (skelsAreEqual memory fuel) memory.size length
                      (one.children.getD 0) (two.children.getD 0)
                  else some false
              | _, _ => none
            else some false
        | _, _ => none

mutual

/-- The skel stands at this place. -/
def Holds (memory : SkelMemory) : Nat → Skel → Prop
  | place, .atom data => ∃ cell, memory.cells place = some cell ∧ cell.isAtom = true ∧ cell.data = data
  | place, .list children => ∃ cell, memory.cells place = some cell ∧ cell.isAtom = false ∧
      HoldsAll memory cell.children children

/-- The skels stand along a chain of cells. -/
def HoldsAll (memory : SkelMemory) : Option Nat → List Skel → Prop
  | link, [] => link = none
  | link, child :: children => ∃ place cell, link = some place ∧ Holds memory place child ∧
      memory.cells place = some cell ∧ HoldsAll memory cell.next children

end

mutual

/-- The skels differ at most behind null bytes of atoms that have the same length. -/
def SameUpToNul : Skel → Skel → Prop
  | .atom first, .atom second => first.length = second.length ∧ strncmpEqual first second = true
  | .list firsts, .list seconds => AllSameUpToNul firsts seconds
  | _, _ => False

def AllSameUpToNul : List Skel → List Skel → Prop
  | [], [] => True
  | first :: firsts, second :: seconds => SameUpToNul first second ∧ AllSameUpToNul firsts seconds
  | _, _ => False

end

mutual

/-- Wherever two lists of the same length are compared, their elements stand one behind the other in
memory, up to the first two that differ. -/
def Aligned (memory : SkelMemory) : Nat → Nat → Skel → Skel → Prop
  | first, second, .list firsts, .list seconds =>
      first = second ∨ firsts.length ≠ seconds.length ∨
        ∃ one two, memory.cells first = some one ∧ memory.cells second = some two ∧
          AlignedFrom memory (one.children.getD 0) (two.children.getD 0) one.children two.children
            firsts seconds
  | _, _, _, _ => True

/-- The next elements are where the code looks for them. -/
def AlignedFrom (memory : SkelMemory) (first second : Nat) :
    Option Nat → Option Nat → List Skel → List Skel → Prop
  | link, other, one :: ones, two :: twos =>
      link = some first ∧ other = some second ∧ Aligned memory first second one two ∧
        (SameUpToNul one two → ∃ cell found, memory.cells first = some cell ∧
          memory.cells second = some found ∧
          AlignedFrom memory (first + memory.size) (second + memory.size) cell.next found.next ones
            twos)
  | _, _, _, _ => True

end

/-- The comparison returns whether the skels are equal. -/
def ComparesAs (memory : SkelMemory) (first second : Nat) (one two : Skel) : Prop :=
  ∃ answer enough, (∀ fuel, enough ≤ fuel → skelsAreEqual memory fuel first second = some answer) ∧
    (answer = true ↔ one = two)

section Comparison

variable {memory : SkelMemory}

/-- With enough fuel, the run returns the answer. -/
def Settles (run : Nat → Option Bool) (answer : Bool) : Prop :=
  ∃ enough, ∀ fuel, enough ≤ fuel → run fuel = some answer

theorem Settles.unique {run : Nat → Option Bool} {answer other : Bool} (one : Settles run answer)
    (two : Settles run other) : answer = other := by
  obtain ⟨enough, settled⟩ := one
  obtain ⟨more, again⟩ := two
  have first := settled (max enough more) (le_max_left _ _)
  have second := again (max enough more) (le_max_right _ _)
  exact Option.some.inj (first.symm.trans second)

theorem listLength_holds : ∀ {children : List Skel} {link : Option Nat},
    HoldsAll memory link children →
      ∀ fuel, children.length ≤ fuel → listLength memory fuel link = some children.length
  | [], link, holds, fuel, _ => by
      rw [HoldsAll] at holds
      subst holds
      cases fuel <;> rfl
  | child :: children, link, holds, fuel, enough => by
      rw [HoldsAll] at holds
      obtain ⟨place, cell, rfl, -, found, rest⟩ := holds
      rw [List.length_cons] at enough
      obtain ⟨fuel, rfl⟩ : ∃ less, fuel = less + 1 := ⟨fuel - 1, by omega⟩
      have later := listLength_holds rest fuel (by omega)
      rw [listLength, found]
      dsimp only
      rw [later]
      rfl

mutual

theorem Holds.unique {memory : SkelMemory} : ∀ {place : Nat} {one two : Skel},
    Holds memory place one → Holds memory place two → one = two
  | place, .atom data, .atom other, first, second => by
      simp only [Holds] at first second
      obtain ⟨cell, found, -, rfl⟩ := first
      obtain ⟨_, again, -, rfl⟩ := second
      rw [Option.some.inj (found.symm.trans again)]
  | place, .atom data, .list others, first, second => by
      simp only [Holds] at first second
      obtain ⟨cell, found, isAtom, -⟩ := first
      obtain ⟨_, again, notAtom, -⟩ := second
      rw [Option.some.inj (found.symm.trans again), notAtom] at isAtom
      cases isAtom
  | place, .list children, .atom other, first, second => by
      simp only [Holds] at first second
      obtain ⟨cell, found, notAtom, -⟩ := first
      obtain ⟨_, again, isAtom, -⟩ := second
      rw [Option.some.inj (found.symm.trans again), isAtom] at notAtom
      cases notAtom
  | place, .list children, .list others, first, second => by
      simp only [Holds] at first second
      obtain ⟨cell, found, -, all⟩ := first
      obtain ⟨_, again, -, others⟩ := second
      rw [← Option.some.inj (found.symm.trans again)] at others
      rw [HoldsAll.unique all others]

theorem HoldsAll.unique {memory : SkelMemory} : ∀ {link : Option Nat} {ones twos : List Skel},
    HoldsAll memory link ones → HoldsAll memory link twos → ones = twos
  | link, [], [], _, _ => rfl
  | link, [], two :: twos, first, second => by
      simp only [HoldsAll] at first second
      obtain ⟨place, cell, some, -⟩ := second
      rw [first] at some
      cases some
  | link, one :: ones, [], first, second => by
      simp only [HoldsAll] at first second
      obtain ⟨place, cell, some, -⟩ := first
      rw [second] at some
      cases some
  | link, one :: ones, two :: twos, first, second => by
      simp only [HoldsAll] at first second
      obtain ⟨place, cell, rfl, holds, found, rest⟩ := first
      obtain ⟨_, other, same, held, again, others⟩ := second
      cases same
      rw [← Option.some.inj (found.symm.trans again)] at others
      rw [holds.unique held, HoldsAll.unique rest others]

end

theorem strncmpEqual_self (data : Bytes) : strncmpEqual data data = true := by
  induction data with
  | nil => rfl
  | cons byte data ih =>
      rw [strncmpEqual]
      split
      · next differs => exact absurd rfl differs
      · split
        · rfl
        · exact ih

mutual

theorem SameUpToNul.refl : ∀ skel : Skel, SameUpToNul skel skel
  | .atom data => by
      rw [SameUpToNul]
      exact ⟨rfl, strncmpEqual_self data⟩
  | .list children => by
      rw [SameUpToNul]
      exact AllSameUpToNul.refl children

theorem AllSameUpToNul.refl : ∀ children : List Skel, AllSameUpToNul children children
  | [] => by
      rw [AllSameUpToNul]
      trivial
  | child :: children => by
      rw [AllSameUpToNul]
      exact ⟨SameUpToNul.refl child, AllSameUpToNul.refl children⟩

end

theorem AllSameUpToNul.length : ∀ {ones twos : List Skel}, AllSameUpToNul ones twos →
    ones.length = twos.length
  | [], [], _ => rfl
  | [], two :: twos, same => by
      rw [AllSameUpToNul] at same
      · cases same
      · simp
      · simp
  | one :: ones, [], same => by
      rw [AllSameUpToNul] at same
      · cases same
      · simp
      · simp
  | one :: ones, two :: twos, same => by
      rw [AllSameUpToNul] at same
      rw [List.length_cons, List.length_cons, same.2.length]

theorem aligned_list {first second : Nat} {ones twos : List Skel} :
    Aligned memory first second (.list ones) (.list twos) ↔
      first = second ∨ ones.length ≠ twos.length ∨
        ∃ one two, memory.cells first = some one ∧ memory.cells second = some two ∧
          AlignedFrom memory (one.children.getD 0) (two.children.getD 0) one.children two.children
            ones twos := by
  rw [Aligned]

/-- Cells of different kinds are unequal at once. -/
theorem skelsAreEqual_kinds {first second : Nat} {one two : SkelCell} (different : first ≠ second)
    (isOne : memory.cells first = some one) (isTwo : memory.cells second = some two)
    (kinds : one.isAtom ≠ two.isAtom) :
    Settles (fun fuel => skelsAreEqual memory fuel first second) false := by
  refine ⟨1, fun fuel enough => ?_⟩
  obtain ⟨fuel, rfl⟩ : ∃ less, fuel = less + 1 := ⟨fuel - 1, by omega⟩
  dsimp only
  rw [skelsAreEqual, if_neg different, isOne, isTwo]
  cases oneKind : one.isAtom <;> cases twoKind : two.isAtom <;> simp_all

theorem skelsAreEqual_same (place : Nat) :
    Settles (fun fuel => skelsAreEqual memory fuel place place) true := by
  refine ⟨1, fun fuel enough => ?_⟩
  obtain ⟨fuel, rfl⟩ : ∃ less, fuel = less + 1 := ⟨fuel - 1, by omega⟩
  dsimp only
  rw [skelsAreEqual, if_pos rfl]

theorem skelsAreEqual_atoms {first second : Nat} {one two : SkelCell} (different : first ≠ second)
    (isOne : memory.cells first = some one) (isTwo : memory.cells second = some two)
    (oneAtom : one.isAtom = true) (twoAtom : two.isAtom = true) :
    Settles (fun fuel => skelsAreEqual memory fuel first second)
      (one.data.length = two.data.length && strncmpEqual one.data two.data) := by
  refine ⟨1, fun fuel enough => ?_⟩
  obtain ⟨fuel, rfl⟩ : ∃ less, fuel = less + 1 := ⟨fuel - 1, by omega⟩
  dsimp only
  rw [skelsAreEqual, if_neg different, isOne, isTwo]
  simp [oneAtom, twoAtom]

/-- Lists are compared by their lengths and then by what stands where the elements are looked for. -/
theorem skelsAreEqual_lists {first second : Nat} {one two : SkelCell} (different : first ≠ second)
    (isOne : memory.cells first = some one) (isTwo : memory.cells second = some two)
    (oneList : one.isAtom = false) (twoList : two.isAtom = false) {ones twos : List Skel}
    (holds : HoldsAll memory one.children ones) (held : HoldsAll memory two.children twos)
    {answer : Bool}
    (elements : ones.length = twos.length → Settles (fun fuel =>
      elementsAreEqual (skelsAreEqual memory fuel) memory.size ones.length (one.children.getD 0)
        (two.children.getD 0)) answer) :
    Settles (fun fuel => skelsAreEqual memory fuel first second)
      (ones.length = twos.length && answer) := by
  by_cases same : ones.length = twos.length
  · obtain ⟨enough, settled⟩ := elements same
    refine ⟨max enough ones.length + 1, fun fuel large => ?_⟩
    obtain ⟨fuel, rfl⟩ : ∃ less, fuel = less + 1 := ⟨fuel - 1, by omega⟩
    have answered := settled fuel (by omega)
    dsimp only at answered ⊢
    rw [skelsAreEqual, if_neg different, isOne, isTwo]
    simp only [oneList, twoList, Bool.and_self, Bool.false_eq_true, if_false, Bool.not_false, if_true]
    rw [listLength_holds holds fuel (by omega), listLength_holds held fuel (by omega)]
    dsimp only
    rw [if_pos same, answered]
    simp [same]
  · refine ⟨max ones.length twos.length + 1, fun fuel large => ?_⟩
    obtain ⟨fuel, rfl⟩ : ∃ less, fuel = less + 1 := ⟨fuel - 1, by omega⟩
    dsimp only
    rw [skelsAreEqual, if_neg different, isOne, isTwo]
    simp only [oneList, twoList, Bool.and_self, Bool.false_eq_true, if_false, Bool.not_false, if_true]
    rw [listLength_holds holds fuel (by omega), listLength_holds held fuel (by omega)]
    dsimp only
    rw [if_neg same]
    simp [same]

mutual

/-- Where the elements of lists are found, skels are compared up to null bytes. The induction is on
the first skel, and the second one is taken apart along with it. -/
theorem settles_skels {memory : SkelMemory} : ∀ (one two : Skel) (first second : Nat),
    Holds memory first one → Holds memory second two → Aligned memory first second one two →
      ∃ answer, Settles (fun fuel => skelsAreEqual memory fuel first second) answer ∧
        (answer = true ↔ SameUpToNul one two)
  | .atom data, .atom other, first, second, holds, held, _ => by
      by_cases same : first = second
      · subst same
        have equal := holds.unique held
        rw [equal]
        exact ⟨true, skelsAreEqual_same first, by simp [SameUpToNul.refl]⟩
      · rw [Holds] at holds held
        obtain ⟨cell, isOne, oneAtom, rfl⟩ := holds
        obtain ⟨found, isTwo, twoAtom, rfl⟩ := held
        refine ⟨_, skelsAreEqual_atoms same isOne isTwo oneAtom twoAtom, ?_⟩
        rw [SameUpToNul]
        simp
  | .atom data, .list others, first, second, holds, held, _ => by
      rw [Holds] at holds
      rw [Holds] at held
      obtain ⟨cell, isOne, oneAtom, rfl⟩ := holds
      obtain ⟨found, isTwo, twoList, -⟩ := held
      have different : first ≠ second := by
        rintro rfl
        rw [Option.some.inj (isOne.symm.trans isTwo), twoList] at oneAtom
        cases oneAtom
      refine ⟨false, skelsAreEqual_kinds different isOne isTwo (by rw [oneAtom, twoList]; simp), ?_⟩
      simp [SameUpToNul]
  | .list children, .atom data, first, second, holds, held, _ => by
      rw [Holds] at holds
      rw [Holds] at held
      obtain ⟨cell, isOne, oneList, -⟩ := holds
      obtain ⟨found, isTwo, twoAtom, rfl⟩ := held
      have different : first ≠ second := by
        rintro rfl
        rw [Option.some.inj (isOne.symm.trans isTwo), twoAtom] at oneList
        cases oneList
      refine ⟨false, skelsAreEqual_kinds different isOne isTwo (by rw [oneList, twoAtom]; simp), ?_⟩
      simp [SameUpToNul]
  | .list children, .list others, first, second, holds, held, aligned => by
      by_cases same : first = second
      · subst same
        have equal := holds.unique held
        rw [equal]
        exact ⟨true, skelsAreEqual_same first, by simp [SameUpToNul.refl]⟩
      · rw [Holds] at holds held
        obtain ⟨cell, isOne, oneList, all⟩ := holds
        obtain ⟨found, isTwo, twoList, others'⟩ := held
        by_cases lengths : children.length = others.length
        · rcases aligned_list.mp aligned with impossible | impossible | ⟨one, two, atOne, atTwo, from'⟩
          · exact absurd impossible same
          · exact absurd lengths impossible
          · cases Option.some.inj (isOne.symm.trans atOne)
            cases Option.some.inj (isTwo.symm.trans atTwo)
            obtain ⟨answer, settled, means⟩ := settles_elements children others _ _ _ _ all others'
              lengths from'
            refine ⟨_, skelsAreEqual_lists same isOne isTwo oneList twoList all others'
              (fun _ => settled), ?_⟩
            rw [SameUpToNul]
            simp [lengths, means]
        · refine ⟨_, @skelsAreEqual_lists memory _ _ _ _ same isOne isTwo oneList twoList _ _ all others' false
            (fun impossible => absurd impossible lengths), ?_⟩
          rw [SameUpToNul]
          simp only [lengths, decide_false, Bool.false_and, Bool.false_eq_true, false_iff]
          intro equal
          exact lengths equal.length

theorem settles_elements {memory : SkelMemory} : ∀ (ones twos : List Skel) (first second : Nat)
    (link other : Option Nat), HoldsAll memory link ones → HoldsAll memory other twos →
      ones.length = twos.length → AlignedFrom memory first second link other ones twos →
      ∃ answer, Settles (fun fuel =>
        elementsAreEqual (skelsAreEqual memory fuel) memory.size ones.length first second) answer ∧
          (answer = true ↔ AllSameUpToNul ones twos)
  | [], [], first, second, link, other, _, _, _, _ => by
      refine ⟨true, ⟨0, fun fuel _ => rfl⟩, ?_⟩
      rw [AllSameUpToNul]
      simp
  | [], two :: twos, first, second, link, other, _, _, lengths, _ => by cases lengths
  | one :: ones, [], first, second, link, other, _, _, lengths, _ => by cases lengths
  | one :: ones, two :: twos, first, second, link, other, holds, held, lengths, aligned => by
      rw [AlignedFrom] at aligned
      obtain ⟨rfl, rfl, alike, later⟩ := aligned
      rw [HoldsAll] at holds
      rw [HoldsAll] at held
      obtain ⟨_, cell, ⟨⟩, isOne, atOne, rest⟩ := holds
      obtain ⟨_, found, ⟨⟩, isTwo, atTwo, more⟩ := held
      obtain ⟨answer, ⟨enough, settled⟩, means⟩ := settles_skels one two first second isOne isTwo alike
      rw [List.length_cons, List.length_cons] at lengths
      cases answer with
      | false =>
          have differ : ¬ SameUpToNul one two := by simpa using means
          refine ⟨false, ⟨enough, fun fuel large => ?_⟩, ?_⟩
          · have answered := settled fuel large
            dsimp only at answered ⊢
            rw [List.length_cons, elementsAreEqual, answered]
          · rw [AllSameUpToNul]
            simp [differ]
      | true =>
          have agree : SameUpToNul one two := by simpa using means
          obtain ⟨_, _, isCell, isFound, from'⟩ := later agree
          cases Option.some.inj (atOne.symm.trans isCell)
          cases Option.some.inj (atTwo.symm.trans isFound)
          obtain ⟨final, ⟨plenty, settledAll⟩, meansAll⟩ := settles_elements ones twos _ _ _ _ rest more
            (by omega) from'
          refine ⟨final, ⟨max enough plenty, fun fuel large => ?_⟩, ?_⟩
          · have answered := settled fuel (by omega)
            have answeredAll := settledAll fuel (by omega)
            dsimp only at answered answeredAll ⊢
            rw [List.length_cons, elementsAreEqual, answered]
            exact answeredAll
          · rw [AllSameUpToNul]
            simp [agree, meansAll]

end

end Comparison

/-- Where the elements of lists are found, the comparison is right unless the skels differ only behind
null bytes. -/
theorem comparesAs_iff {memory : SkelMemory} {first second : Nat} {one two : Skel}
    (holds : Holds memory first one) (held : Holds memory second two)
    (aligned : Aligned memory first second one two) :
    ComparesAs memory first second one two ↔ (SameUpToNul one two → one = two) := by
  obtain ⟨answer, settled, means⟩ := settles_skels one two first second holds held aligned
  constructor
  · rintro ⟨other, enough, returned, right⟩ alike
    have same := settled.unique ⟨enough, returned⟩
    subst same
    exact right.mp (means.mpr alike)
  · intro plain
    obtain ⟨enough, returned⟩ := settled
    refine ⟨answer, enough, returned, means.trans ⟨plain, ?_⟩⟩
    rintro rfl
    exact SameUpToNul.refl one

def atomCell (data : Bytes) (next : Option Nat) : SkelCell := ⟨true, data, none, next⟩

def listCell (children next : Option Nat) : SkelCell := ⟨false, [], children, next⟩

/-- The cells of `((a) (b c))` and of `((a) (b d))`, in the order in which the parser makes them. -/
def nestedMemory : SkelMemory where
  size := 40
  cells place := [(0, atomCell [97] none), (40, listCell (some 0) (some 160)),
    (80, atomCell [98] (some 120)), (120, atomCell [99] none), (160, listCell (some 80) none),
    (200, listCell (some 40) none), (240, atomCell [97] none), (280, listCell (some 240) (some 400)),
    (320, atomCell [98] (some 360)), (360, atomCell [100] none), (400, listCell (some 320) none),
    (440, listCell (some 280) none)].lookup place

/-- `((a) (b` and a last atom. -/
def nestedSkel (last : UInt8) : Skel :=
  .list [.list [.atom [97]], .list [.atom [98], .atom [last]]]

/-- The atoms `\0a` and `\0b`. -/
def nulMemory : SkelMemory where
  size := 40
  cells place := [(0, atomCell [0, 97] none), (40, atomCell [0, 98] none)].lookup place

/-- The cells of `(a b)` and of `(a c)`, where the elements stand one behind the other. -/
def flatMemory : SkelMemory where
  size := 40
  cells place := [(0, atomCell [97] (some 40)), (40, atomCell [98] none), (80, listCell (some 0) none),
    (120, atomCell [97] (some 160)), (160, atomCell [99] none),
    (200, listCell (some 120) none)].lookup place

theorem comparesAs_iff_flat :
    ComparesAs flatMemory 80 200 (.list [.atom [97], .atom [98]]) (.list [.atom [97], .atom [99]]) ↔
      (SameUpToNul (.list [.atom [97], .atom [98]]) (.list [.atom [97], .atom [99]]) →
        Skel.list [.atom [97], .atom [98]] = .list [.atom [97], .atom [99]]) := by
  refine comparesAs_iff ?_ ?_ ?_
  · simp only [Holds, HoldsAll]
    exact ⟨_, rfl, rfl, _, _, rfl, ⟨_, rfl, rfl, rfl⟩, rfl, _, _, rfl, ⟨_, rfl, rfl, rfl⟩, rfl, rfl⟩
  · simp only [Holds, HoldsAll]
    exact ⟨_, rfl, rfl, _, _, rfl, ⟨_, rfl, rfl, rfl⟩, rfl, _, _, rfl, ⟨_, rfl, rfl, rfl⟩, rfl, rfl⟩
  · simp only [Aligned, AlignedFrom]
    exact Or.inr (Or.inr ⟨_, _, rfl, rfl, rfl, rfl, trivial, fun _ => ⟨_, _, rfl, rfl, rfl, rfl, trivial,
      fun _ => ⟨_, _, rfl, rfl, trivial⟩⟩⟩)

/-- The comparison of `((a) (b c))` and `((a) (b d))` looks at the first two `b`s and not at the
second elements, and the comparison of two atoms stops at their null bytes. -/
theorem unequal_skels_are_equal :
    (Holds nestedMemory 200 (nestedSkel 99) ∧ Holds nestedMemory 440 (nestedSkel 100) ∧
      ¬ ComparesAs nestedMemory 200 440 (nestedSkel 99) (nestedSkel 100)) ∧
    Holds nulMemory 0 (.atom [0, 97]) ∧ Holds nulMemory 40 (.atom [0, 98]) ∧
      ¬ ComparesAs nulMemory 0 40 (.atom [0, 97]) (.atom [0, 98]) := by
  refine ⟨⟨?_, ?_, ?_⟩, ?_, ?_, ?_⟩
  · simp only [nestedSkel, Holds, HoldsAll]
    exact ⟨_, rfl, rfl, _, _, rfl, ⟨_, rfl, rfl, _, _, rfl, ⟨_, rfl, rfl, rfl⟩, rfl, rfl⟩, rfl, _, _, rfl,
      ⟨_, rfl, rfl, _, _, rfl, ⟨_, rfl, rfl, rfl⟩, rfl, _, _, rfl, ⟨_, rfl, rfl, rfl⟩, rfl, rfl⟩, rfl, rfl⟩
  · simp only [nestedSkel, Holds, HoldsAll]
    exact ⟨_, rfl, rfl, _, _, rfl, ⟨_, rfl, rfl, _, _, rfl, ⟨_, rfl, rfl, rfl⟩, rfl, rfl⟩, rfl, _, _, rfl,
      ⟨_, rfl, rfl, _, _, rfl, ⟨_, rfl, rfl, rfl⟩, rfl, _, _, rfl, ⟨_, rfl, rfl, rfl⟩, rfl, rfl⟩, rfl, rfl⟩
  · rintro ⟨answer, enough, returned, right⟩
    have equal : skelsAreEqual nestedMemory (enough + 4) 200 440 = some true := by rfl
    rw [returned _ (by omega)] at equal
    have same := right.mp (Option.some.inj equal)
    simp [nestedSkel] at same
  · simp only [Holds]
    exact ⟨_, rfl, rfl, rfl⟩
  · simp only [Holds]
    exact ⟨_, rfl, rfl, rfl⟩
  · rintro ⟨answer, enough, returned, right⟩
    have equal : skelsAreEqual nulMemory (enough + 1) 0 40 = some true := by rfl
    rw [returned _ (by omega)] at equal
    have same := right.mp (Option.some.inj equal)
    simp at same

end Subversion.Fs
