/-
This file compares the skels that are parsed with a grammar of their texts.
-/

import Subversion.Fs.IdText
import Subversion.Fs.Skel

namespace Subversion.Fs

open Delta

inductive TextKind where
  | implicit
  | explicit
  | list
  deriving DecidableEq, Repr

/-- What two grammars of skels may differ in: the bytes that an atom of implicit length cannot hold,
and which elements may follow each other without whitespace. -/
structure SkelGrammar where
  ends : UInt8 → Bool
  mayTouch : Option TextKind → TextKind → Prop

/-- Two atoms must be separated by whitespace. -/
def documentedGrammar : SkelGrammar where
  ends byte := skelCharType byte = .space || byte = 40 || byte = 41
  mayTouch last next := last = none ∨ last = some .list ∨ next = .list

/-- Square brackets end atoms, too, and only atoms of implicit length must be separated. -/
def acceptedGrammar : SkelGrammar where
  ends := endsAtom
  mayTouch last next := last ≠ some .implicit ∨ next = .list

def IsSpaces (spaces : Bytes) : Prop := ∀ byte ∈ spaces, skelCharType byte = .space

mutual

/-- The text denotes the skel. -/
inductive Derives (grammar : SkelGrammar) : TextKind → Bytes → Skel → Prop where
  | implicit {byte : UInt8} {rest : Bytes} (name : skelCharType byte = .name)
      (plain : ∀ other ∈ rest, grammar.ends other = false) :
      Derives grammar .implicit (byte :: rest) (.atom (byte :: rest))
  | explicit {digits data : Bytes} {space : UInt8} (number : IsNumber digits)
      (isSpace : skelCharType space = .space) (size : decimal digits = data.length) :
      Derives grammar .explicit (digits ++ space :: data) (.atom data)
  | list {text : Bytes} {children : List Skel} (elements : Elements grammar none text children) :
      Derives grammar .list (40 :: text) (.list children)

/-- The elements of a list behind an element of the given kind, with the closing parenthesis. -/
inductive Elements (grammar : SkelGrammar) : Option TextKind → Bytes → List Skel → Prop where
  | close {last : Option TextKind} {spaces : Bytes} (isSpaces : IsSpaces spaces) :
      Elements grammar last (spaces ++ [41]) []
  | element {last : Option TextKind} {kind : TextKind} {spaces text rest : Bytes} {child : Skel}
      {children : List Skel} (isSpaces : IsSpaces spaces) (derives : Derives grammar kind text child)
      (separated : spaces = [] → grammar.mayTouch last kind)
      (elements : Elements grammar (some kind) rest children) :
      Elements grammar last (spaces ++ (text ++ rest)) (child :: children)

end

/-- The first byte of a text says what kind it is. -/
def Starts (byte : UInt8) : TextKind → Prop
  | .implicit => skelCharType byte = .name
  | .explicit => isDigit byte
  | .list => byte = 40

section Texts

variable {grammar : SkelGrammar} {kind : TextKind} {text rest : Bytes} {skel : Skel}

theorem skelCharType_digit {byte : UInt8} (digit : isDigit byte) : skelCharType byte = .digit := by
  obtain ⟨low, high⟩ := digit
  simp only [skelCharType]
  rw [if_neg (by omega), if_pos (by omega)]

/-- Neither whitespace nor a closing parenthesis starts a text. -/
theorem Starts.plain {byte : UInt8} (starts : Starts byte kind) :
    skelCharType byte ≠ .space ∧ byte ≠ 41 := by
  cases kind with
  | implicit =>
      have name : skelCharType byte = .name := starts
      refine ⟨by rw [name]; decide, ?_⟩
      rintro rfl
      exact absurd name (by decide)
  | explicit =>
      have digit := skelCharType_digit starts
      refine ⟨by rw [digit]; decide, ?_⟩
      rintro rfl
      exact absurd digit (by decide)
  | list =>
      rw [show byte = 40 from starts]
      decide

theorem Derives.starts (derives : Derives grammar kind text skel) :
    ∃ byte more, text = byte :: more ∧ Starts byte kind := by
  cases derives with
  | implicit name plain => exact ⟨_, _, rfl, name⟩
  | @explicit digits data space number isSpace size =>
      obtain ⟨byte, more, rfl⟩ := List.exists_cons_of_ne_nil number.1
      exact ⟨byte, more ++ space :: data, rfl, number.2 byte List.mem_cons_self⟩
  | list elements => exact ⟨40, _, rfl, rfl⟩

theorem dropWhile_spaces {spaces : Bytes} (isSpaces : IsSpaces spaces) {byte : UInt8} (more : Bytes)
    (notSpace : skelCharType byte ≠ .space) :
    (spaces ++ byte :: more).dropWhile (fun byte => skelCharType byte = .space) = byte :: more := by
  have split := @takeWhile_append_stop (fun byte => skelCharType byte = .space) spaces
    (byte :: more) (fun other member => by simpa using isSpaces other member)
    (by rintro first others ⟨⟩; simpa using notSpace)
  exact split.2

theorem splitSpaces (data : Bytes) :
    ∃ spaces, IsSpaces spaces ∧
      data = spaces ++ data.dropWhile fun byte => skelCharType byte = .space := by
  refine ⟨data.takeWhile fun byte => skelCharType byte = .space, ?_,
    List.takeWhile_append_dropWhile.symm⟩
  intro byte member
  simpa using List.mem_takeWhile_imp member

theorem endsAtom_space {byte : UInt8} (isSpace : skelCharType byte = .space) : endsAtom byte = true := by
  rw [endsAtom, isSpace]
  rfl

/-- Behind an atom of implicit length, the text of a list goes on with a byte that ends the atom. -/
theorem Elements.ends {children : List Skel}
    (elements : Elements acceptedGrammar (some .implicit) text children) : Ends (text ++ rest) := by
  intro byte more split
  cases elements with
  | @close _ spaces isSpaces =>
      cases spaces with
      | nil =>
          cases split
          decide
      | cons first spaces =>
          cases split
          exact endsAtom_space (isSpaces byte List.mem_cons_self)
  | @element _ kind spaces text others child children isSpaces derives separated elements =>
      cases spaces with
      | nil =>
          obtain ⟨first, others, rfl, starts⟩ := derives.starts
          cases split
          rcases separated rfl with impossible | rfl
          · exact absurd rfl impossible
          · rw [show byte = 40 from starts]
            decide
      | cons first spaces =>
          cases split
          exact endsAtom_space (isSpaces byte List.mem_cons_self)

theorem noDigitNext_space {space : UInt8} (isSpace : skelCharType space = .space) (rest : Bytes) :
    NoDigitNext (space :: rest) := by
  rintro byte more ⟨⟩ digit
  rw [skelCharType_digit digit] at isSpace
  cases isSpace

theorem explicitAtom_derives {digits data : Bytes} {space : UInt8} (number : IsNumber digits)
    (isSpace : skelCharType space = .space) (size : decimal digits = data.length) (rest : Bytes) :
    explicitAtom (digits ++ space :: data ++ rest) = some (.atom data, rest) := by
  have read := getSize_append (digits ++ space :: data ++ rest).length number
    (noDigitNext_space isSpace (data ++ rest))
  rw [if_pos (by simp [size]; omega)] at read
  rw [List.append_assoc, List.cons_append] at read ⊢
  rw [explicitAtom, read]
  simp [isSpace, size]

theorem parse_list (fuel : Nat) (rest : Bytes) :
    parse (fuel + 1) (40 :: rest) =
      match parseList fuel rest with
      | none => none
      | some (children, left) => some (.list children, left) := by
  rw [parse]
  rfl

/-- A text of the accepted grammar is parsed to the end, whatever follows. The induction is on the
fuel, and both functions are followed at once. -/
theorem parse_complete (fuel : Nat) :
    (∀ kind text skel rest, text.length ≤ fuel → Derives acceptedGrammar kind text skel →
      (kind = .implicit → Ends rest) → parse fuel (text ++ rest) = some (skel, rest)) ∧
    ∀ last text children rest, text.length ≤ fuel → Elements acceptedGrammar last text children →
      parseList fuel (text ++ rest) = some (children, rest) := by
  induction fuel with
  | zero =>
      constructor
      · intro kind text skel rest short derives _
        obtain ⟨byte, more, rfl, _⟩ := derives.starts
        simp at short
      · intro last text children rest short elements
        cases elements with
        | close _ => simp at short
        | element _ derives _ _ =>
            obtain ⟨byte, more, rfl, _⟩ := derives.starts
            simp at short
  | succ fuel ih =>
      obtain ⟨skels, lists⟩ := ih
      constructor
      · intro kind text skel rest short derives ends
        obtain ⟨byte, more, split, starts⟩ := derives.starts
        cases derives with
        | @implicit first others name plain =>
            have notList : first ≠ 40 := by
              rintro rfl
              exact absurd name (by decide)
            obtain ⟨taken, dropped⟩ := @takeWhile_append_stop (fun byte => !endsAtom byte) others rest
              (fun other member => by simpa [acceptedGrammar] using plain other member)
              (fun byte more split => by simpa using ends rfl byte more split)
            rw [List.cons_append, parse, if_neg notList, if_pos name, implicitAtom, if_pos name, taken,
              dropped]
        | @explicit digits data space number isSpace size =>
            have read := explicitAtom_derives number isSpace size rest
            have digit := skelCharType_digit starts
            have notList : byte ≠ 40 := by
              rintro rfl
              exact absurd digit (by decide)
            rw [split, List.cons_append] at read ⊢
            rw [parse, if_neg notList, if_neg (by rw [digit]; decide), read]
        | @list inner children elements =>
            rw [List.length_cons] at short
            rw [List.cons_append, parse_list, lists none inner children rest (by omega) elements]
      · intro last text children rest short elements
        cases elements with
        | @close _ spaces isSpaces =>
            rw [List.append_assoc, List.singleton_append, parseList,
              dropWhile_spaces isSpaces rest (by decide)]
            rfl
        | @element _ kind spaces text others child children isSpaces derives separated elements =>
            obtain ⟨byte, more, split, starts⟩ := derives.starts
            rw [List.length_append, List.length_append] at short
            have long : 1 ≤ others.length := by
              cases elements with
              | close _ => simp
              | element _ derives _ _ =>
                  obtain ⟨byte, more, rfl, _⟩ := derives.starts
                  simp
                  omega
            have read := skels kind text child (others ++ rest) (by omega) derives (by
              rintro rfl
              exact elements.ends)
            have later := lists (some kind) others children rest (by
              rw [split, List.length_cons] at short
              omega) elements
            rw [List.append_assoc, List.append_assoc, parseList]
            rw [split, List.cons_append] at read ⊢
            rw [dropWhile_spaces isSpaces _ starts.plain.1]
            dsimp only
            rw [if_neg starts.plain.2, read]
            dsimp only
            rw [later]

theorem explicitAtom_some {data left : Bytes}
    (parsed : explicitAtom data = some (skel, left)) :
    ∃ text, data = text ++ left ∧ Derives grammar .explicit text skel := by
  rw [explicitAtom] at parsed
  split at parsed
  · cases parsed
  · cases parsed
  · next size byte rest read =>
      obtain ⟨digits, rfl, number, -, rfl, -⟩ := getSize_some read
      split at parsed
      · cases parsed
      · next isSpace =>
          split at parsed
          · cases parsed
          · next enough =>
              cases parsed
              refine ⟨digits ++ byte :: rest.take (decimal digits), ?_, ?_⟩
              · rw [List.append_assoc, List.cons_append, List.take_append_drop]
              · refine Derives.explicit number (not_not.mp isSpace) ?_
                rw [List.length_take]
                omega

theorem implicitAtom_some {byte : UInt8} {rest left : Bytes} (name : skelCharType byte = .name)
    (parsed : implicitAtom (byte :: rest) = some (skel, left)) :
    ∃ text, byte :: rest = text ++ left ∧ Derives acceptedGrammar .implicit text skel ∧ Ends left := by
  rw [implicitAtom, if_pos name] at parsed
  cases parsed
  refine ⟨byte :: rest.takeWhile fun byte => !endsAtom byte, ?_, Derives.implicit name ?_, ?_⟩
  · rw [List.cons_append, List.takeWhile_append_dropWhile]
  · intro other member
    simpa [acceptedGrammar] using List.mem_takeWhile_imp member
  · intro first more split
    have stops := List.head?_dropWhile_not (fun byte => !endsAtom byte) rest
    rw [split] at stops
    simpa using stops

/-- Only an opening parenthesis starts a text behind an atom of implicit length without whitespace. -/
theorem Starts.list_of_ends {byte : UInt8} (starts : Starts byte kind) (ends : endsAtom byte = true) :
    kind = .list := by
  cases kind with
  | implicit =>
      rw [endsAtom, show skelCharType byte = .name from starts] at ends
      cases ends
  | explicit =>
      rw [endsAtom, skelCharType_digit starts] at ends
      cases ends
  | list => rfl

/-- What was parsed is a text of the accepted grammar. -/
theorem parse_sound (fuel : Nat) :
    (∀ data skel left, parse fuel data = some (skel, left) →
      ∃ kind text, data = text ++ left ∧ Derives acceptedGrammar kind text skel ∧
        (kind = .implicit → Ends left)) ∧
    ∀ data children left last, parseList fuel data = some (children, left) →
      (last = some .implicit → Ends data) →
      ∃ text, data = text ++ left ∧ Elements acceptedGrammar last text children := by
  induction fuel with
  | zero =>
      constructor
      · intro data skel left parsed
        cases parsed
      · intro data children left last parsed
        cases parsed
  | succ fuel ih =>
      obtain ⟨skels, lists⟩ := ih
      constructor
      · intro data skel left parsed
        cases data with
        | nil => cases parsed
        | cons byte rest =>
            by_cases isList : byte = 40
            · subst isList
              rw [parse_list] at parsed
              split at parsed
              · cases parsed
              · next children left read =>
                  cases parsed
                  obtain ⟨text, rfl, elements⟩ := lists rest children left none read (by simp)
                  exact ⟨.list, 40 :: text, rfl, Derives.list elements, by simp⟩
            · rw [parse, if_neg isList] at parsed
              split at parsed
              · next name =>
                  obtain ⟨text, split, derives, ends⟩ := implicitAtom_some name parsed
                  exact ⟨.implicit, text, split, derives, fun _ => ends⟩
              · obtain ⟨text, split, derives⟩ := @explicitAtom_some acceptedGrammar _ _ _ parsed
                exact ⟨.explicit, text, split, derives, by simp⟩
      · intro data children left last parsed ends
        obtain ⟨spaces, isSpaces, split⟩ := splitSpaces data
        rw [parseList] at parsed
        split at parsed
        · cases parsed
        · next byte rest stripped =>
            rw [stripped] at split
            subst split
            split at parsed
            · next closes =>
                cases parsed
                subst closes
                exact ⟨spaces ++ [41], by simp, Elements.close isSpaces⟩
            · next continues =>
                split at parsed
                · cases parsed
                · next element middle read =>
                    split at parsed
                    · cases parsed
                    · next others last' later =>
                        cases parsed
                        obtain ⟨kind, text, isText, derives, stops⟩ := skels _ _ _ read
                        obtain ⟨more, rfl, elements⟩ := lists middle others left (some kind) later
                          (fun implicit => stops (Option.some.inj implicit))
                        refine ⟨spaces ++ (text ++ more), by simp [isText],
                          Elements.element isSpaces derives ?_ elements⟩
                        intro empty
                        subst empty
                        by_cases implicit : last = some .implicit
                        · obtain ⟨first, behind, rfl, starts⟩ := derives.starts
                          cases isText
                          exact Or.inr (starts.list_of_ends (ends implicit _ _ rfl))
                        · exact Or.inl implicit

/-- The whole input is searched for a text in front. -/
theorem parseSkel_iff (data : Bytes) (skel : Skel) :
    parseSkel data = some skel ↔ ∃ kind text rest, data = text ++ rest ∧
      Derives acceptedGrammar kind text skel ∧ (kind = .implicit → Ends rest) := by
  rw [parseSkel]
  constructor
  · intro parsed
    obtain ⟨⟨found, left⟩, read, rfl⟩ := Option.map_eq_some_iff.mp parsed
    obtain ⟨kind, text, split, derives, ends⟩ := (parse_sound _).1 _ _ _ read
    exact ⟨kind, text, left, split, derives, ends⟩
  · rintro ⟨kind, text, rest, rfl, derives, ends⟩
    have read := (parse_complete ((text ++ rest).length + 1)).1 kind text skel rest
      (by simp; omega) derives ends
    rw [read]
    rfl

end Texts

/-- A skel with the place of its data in the input. The data of a list is its whole text. -/
inductive SkelAt where
  | atom (start len : Nat)
  | list (start len : Nat) (children : List SkelAt)

namespace SkelAt

def stop : SkelAt → Nat
  | .atom start len => start + len
  | .list start len _ => start + len

mutual

def contents (data : Bytes) : SkelAt → Skel
  | .atom start len => .atom ((data.drop start).take len)
  | .list _ _ children => .list (contentsList data children)

def contentsList (data : Bytes) : List SkelAt → List Skel
  | [] => []
  | child :: children => child.contents data :: contentsList data children

end

mutual

/-- The data of the skel and of all its elements is inside an input of this size. -/
def Inside (size : Nat) : SkelAt → Prop
  | .atom start len => start + len ≤ size
  | .list start len children => start + len ≤ size ∧ AllInside size children

def AllInside (size : Nat) : List SkelAt → Prop
  | [] => True
  | child :: children => child.Inside size ∧ AllInside size children

end

end SkelAt

def implicitAtomAt (data : Bytes) (start : Nat) : Option SkelAt :=
  match data.drop start with
  | [] => none
  | byte :: rest =>
      if skelCharType byte = .name then
        some (.atom start (1 + (rest.takeWhile fun byte => !endsAtom byte).length))
      else none

def explicitAtomAt (data : Bytes) (start : Nat) : Option SkelAt :=
  match getSize (data.length - start) (data.drop start) with
  | none => none
  | some (_, []) => none
  | some (size, byte :: rest) =>
      if skelCharType byte ≠ .space then none
      else if rest.length < size then none
      else some (.atom (data.length - rest.length) size)

mutual

/-- Each unit of fuel enters a list or reads one of its elements. -/
def parseAt (data : Bytes) : Nat → Nat → Option SkelAt
  | 0, _ => none
  | fuel + 1, start =>
      match data.drop start with
      | [] => none
      | byte :: _ =>
          if byte = 40 then
            match listAt data fuel (start + 1) with
            | none => none
            | some (children, stop) => some (.list start (stop - start) children)
          else if skelCharType byte = .name then implicitAtomAt data start
          else explicitAtomAt data start

/-- The elements from here on, and the end of the list. The next element is read at the end of the
one before. -/
def listAt (data : Bytes) : Nat → Nat → Option (List SkelAt × Nat)
  | 0, _ => none
  | fuel + 1, start =>
      match (data.drop start).dropWhile fun byte => skelCharType byte = .space with
      | [] => none
      | byte :: rest =>
          if byte = 41 then some ([], data.length - rest.length)
          else
            match parseAt data fuel (data.length - (rest.length + 1)) with
            | none => none
            | some element =>
                match listAt data fuel element.stop with
                | none => none
                | some (others, stop) => some (element :: others, stop)

end

def parseSkelAt (data : Bytes) : Option SkelAt := parseAt data (data.length + 1) 0

section Places

open SkelAt

variable {data : Bytes}

/-- What is left of a text is found again by its length. -/
theorem drop_length_sub {front rest : Bytes} (split : data = front ++ rest) :
    data.drop (data.length - rest.length) = rest := by
  rw [split, List.length_append, Nat.add_sub_cancel, List.drop_left]

/-- The atom stands where it was found, and what is left comes behind it. -/
def Places (data : Bytes) (start : Nat) (found : Option SkelAt) (read : Option (Skel × Bytes)) : Prop :=
  found.map (fun skel => (skel.contents data, data.drop skel.stop)) = read ∧
    ∀ skel, found = some skel → skel.Inside data.length ∧ start ≤ skel.stop

theorem Places.none (start : Nat) : Places data start none none := ⟨rfl, by simp⟩

theorem Places.atom {start begins : Nat} {text left : Bytes} (split : data.drop begins = text ++ left)
    (enough : begins + text.length ≤ data.length) (later : start ≤ begins) :
    Places data start (some (.atom begins text.length)) (some (.atom text, left)) := by
  constructor
  · rw [Option.map_some, contents, stop, ← List.drop_drop, split, List.take_left, List.drop_left]
  · rintro skel ⟨⟩
    refine ⟨?_, ?_⟩
    · rw [Inside]
      exact enough
    · rw [stop]
      omega

theorem length_of_drop {start : Nat} {byte : UInt8} {rest : Bytes}
    (split : data.drop start = byte :: rest) : start + (rest.length + 1) = data.length := by
  have length := congrArg List.length split
  rw [List.length_drop, List.length_cons] at length
  omega

theorem implicitAtomAt_places (start : Nat) :
    Places data start (implicitAtomAt data start) (implicitAtom (data.drop start)) := by
  rw [implicitAtomAt]
  cases split : data.drop start with
  | nil => exact Places.none start
  | cons byte rest =>
      rw [implicitAtom]
      dsimp only
      by_cases name : skelCharType byte = .name
      · rw [if_pos name, if_pos name]
        have long := length_of_drop split
        have short := (List.takeWhile_sublist (fun byte => !endsAtom byte) (l := rest)).length_le
        have whole : data.drop start = (byte :: rest.takeWhile fun byte => !endsAtom byte) ++
            rest.dropWhile fun byte => !endsAtom byte := by
          rw [List.cons_append, List.takeWhile_append_dropWhile, split]
        have places := Places.atom whole (by rw [List.length_cons]; omega) (le_refl start)
        rw [List.length_cons, Nat.add_comm] at places
        exact places
      · rw [if_neg name, if_neg name]
        exact Places.none start

theorem explicitAtomAt_places (start : Nat) :
    Places data start (explicitAtomAt data start) (explicitAtom (data.drop start)) := by
  rw [explicitAtomAt, explicitAtom, List.length_drop]
  cases read : getSize (data.length - start) (data.drop start) with
  | none => exact Places.none start
  | some result =>
      obtain ⟨size, rest⟩ := result
      cases rest with
      | nil => exact Places.none start
      | cons byte rest =>
          dsimp only
          by_cases isSpace : skelCharType byte ≠ .space
          · rw [if_pos isSpace, if_pos isSpace]
            exact Places.none start
          · rw [if_neg isSpace, if_neg isSpace]
            by_cases short : rest.length < size
            · rw [if_pos short, if_pos short]
              exact Places.none start
            · rw [if_neg short, if_neg short]
              obtain ⟨digits, split, -⟩ := getSize_some read
              have whole : data = (data.take start ++ digits ++ [byte]) ++ rest := by
                rw [List.append_assoc, List.append_assoc, List.singleton_append, ← split,
                  List.take_append_drop]
              have length := congrArg List.length whole
              have long := congrArg List.length split
              rw [List.length_append] at length
              rw [List.length_drop, List.length_append, List.length_cons] at long
              have taken : (rest.take size).length = size := by
                rw [List.length_take]
                omega
              have places := @Places.atom data start (data.length - rest.length) (rest.take size)
                (rest.drop size) (by rw [drop_length_sub whole, List.take_append_drop]) (by omega)
                (by omega)
              rw [taken] at places
              exact places

/-- The elements stand where they were found, and what is left comes behind the list. -/
def PlacesAll (data : Bytes) (start : Nat) (found : Option (List SkelAt × Nat))
    (read : Option (List Skel × Bytes)) : Prop :=
  found.map (fun found => (contentsList data found.1, data.drop found.2)) = read ∧
    ∀ children stop, found = some (children, stop) →
      AllInside data.length children ∧ start ≤ stop ∧ stop ≤ data.length

theorem PlacesAll.none (start : Nat) : PlacesAll data start none none := ⟨rfl, by rintro _ _ ⟨⟩⟩

theorem Places.list {start : Nat} {found : Option (List SkelAt × Nat)}
    {read : Option (List Skel × Bytes)} :
    PlacesAll data (start + 1) found read →
      Places data start
        (match found with
        | .none => .none
        | some (children, stop) => some (.list start (stop - start) children))
        (match read with
        | .none => .none
        | some (children, left) => some (.list children, left)) := by
  rintro ⟨rfl, inside⟩
  cases found with
  | none => exact Places.none start
  | some found =>
      obtain ⟨children, stop⟩ := found
      obtain ⟨all, low, high⟩ := inside children stop rfl
      have ends : start + (stop - start) = stop := by omega
      constructor
      · rw [Option.map_some, Option.map_some, contents, SkelAt.stop, ends]
      · rintro skel ⟨⟩
        rw [Inside, SkelAt.stop, ends]
        exact ⟨⟨high, all⟩, by omega⟩

/-- One element is placed, and the others behind it. -/
theorem PlacesAll.element {start middle : Nat} (later : start ≤ middle) {element : Option SkelAt}
    {read : Option (Skel × Bytes)} {listFrom : Nat → Option (List SkelAt × Nat)}
    {readFrom : Bytes → Option (List Skel × Bytes)}
    (others : ∀ start, PlacesAll data start (listFrom start) (readFrom (data.drop start))) :
    Places data middle element read →
      PlacesAll data start
        (match element with
        | .none => .none
        | some element =>
            match listFrom element.stop with
            | .none => .none
            | some (others, stop) => some (element :: others, stop))
        (match read with
        | .none => .none
        | some (element, left) =>
            match readFrom left with
            | .none => .none
            | some (others, left) => some (element :: others, left)) := by
  rintro ⟨rfl, inside⟩
  cases element with
  | none => exact PlacesAll.none start
  | some element =>
      obtain ⟨isInside, behind⟩ := inside element rfl
      obtain ⟨same, all⟩ := others element.stop
      rw [Option.map_some]
      dsimp only
      rw [← same]
      cases found : listFrom element.stop with
      | none => exact PlacesAll.none start
      | some found' =>
          obtain ⟨children, stop⟩ := found'
          obtain ⟨allInside, low, high⟩ := all children stop found
          refine ⟨rfl, ?_⟩
          rintro _ _ ⟨⟩
          exact ⟨⟨isInside, allInside⟩, by omega, high⟩

/-- The places that are parsed are those of the skels that are parsed. -/
theorem parseAt_places (data : Bytes) (fuel : Nat) :
    (∀ start, Places data start (parseAt data fuel start) (parse fuel (data.drop start))) ∧
    ∀ start, PlacesAll data start (listAt data fuel start) (parseList fuel (data.drop start)) := by
  induction fuel with
  | zero => exact ⟨fun start => Places.none start, fun start => PlacesAll.none start⟩
  | succ fuel ih =>
      obtain ⟨skels, lists⟩ := ih
      constructor
      · intro start
        rw [parseAt]
        cases split : data.drop start with
        | nil => exact Places.none start
        | cons byte rest =>
            dsimp only
            by_cases isList : byte = 40
            · have behind : data.drop (start + 1) = rest := by
                rw [← List.drop_drop, split]
                rfl
              have places := lists (start + 1)
              rw [behind] at places
              rw [if_pos isList, isList, parse_list]
              exact Places.list places
            · have atomAt := @implicitAtomAt_places data start
              have sizedAt := @explicitAtomAt_places data start
              rw [split] at atomAt sizedAt
              rw [if_neg isList, parse, if_neg isList]
              split
              · exact atomAt
              · exact sizedAt
      · intro start
        obtain ⟨spaces, -, whole⟩ := splitSpaces (data.drop start)
        rw [listAt, parseList]
        cases stripped : (data.drop start).dropWhile fun byte => skelCharType byte = .space with
        | nil => exact PlacesAll.none start
        | cons byte rest =>
            rw [stripped] at whole
            have split : data = (data.take start ++ spaces) ++ byte :: rest := by
              rw [List.append_assoc, ← whole, List.take_append_drop]
            have length := congrArg List.length whole
            rw [List.length_drop, List.length_append, List.length_cons] at length
            dsimp only
            by_cases closes : byte = 41
            · rw [if_pos closes, if_pos closes]
              refine ⟨?_, ?_⟩
              · have behind := @drop_length_sub data (data.take start ++ spaces ++ [byte]) rest
                  (split.trans (by simp))
                rw [Option.map_some, behind]
                rfl
              · rintro _ _ ⟨⟩
                exact ⟨trivial, by omega, by omega⟩
            · rw [if_neg closes, if_neg closes]
              have begins := drop_length_sub split
              rw [List.length_cons] at begins
              have places := skels (data.length - (rest.length + 1))
              rw [begins] at places
              exact PlacesAll.element (by omega) lists places

/-- The skels that are returned are those that are parsed, and they point into the input. -/
theorem parseSkelAt_places (data : Bytes) :
    (parseSkelAt data).map (contents data) = parseSkel data ∧
      ∀ skel, parseSkelAt data = some skel → skel.Inside data.length := by
  obtain ⟨same, inside⟩ := (parseAt_places data (data.length + 1)).1 0
  rw [List.drop_zero] at same
  constructor
  · rw [parseSkel, ← same, Option.map_map]
    rfl
  · intro skel found
    exact (inside skel found).1

end Places

/-- An input is accepted exactly when a text of the accepted grammar stands in front of it, and the
skel that is returned is what that text denotes, with all its data inside the input. -/
theorem parseSkelAt_accepts (data : Bytes) :
    (∀ skel, (parseSkelAt data).map (SkelAt.contents data) = some skel ↔
      ∃ kind text rest, data = text ++ rest ∧ Derives acceptedGrammar kind text skel ∧
        (kind = .implicit → Ends rest)) ∧
    ∀ skel, parseSkelAt data = some skel → skel.Inside data.length := by
  obtain ⟨same, inside⟩ := parseSkelAt_places data
  refine ⟨fun skel => ?_, inside⟩
  rw [same]
  exact parseSkel_iff data skel

section Differences

/-- The input is read as the skel exactly when the documented grammar derives the skel from it. -/
def AsDocumented (data : Bytes) : Prop :=
  ∀ skel, (parseSkelAt data).map (SkelAt.contents data) = some skel ↔
    ∃ kind, Derives documentedGrammar kind data skel

/-- `a ` is a skel with a byte behind it. -/
def trailing : Bytes := [97, 32]

/-- `(1 a1 b)` has two atoms without whitespace between them. -/
def touching : Bytes := [40, 49, 32, 97, 49, 32, 98, 41]

/-- `(a[)` has an atom with a square bracket in it. -/
def bracketed : Bytes := [40, 97, 91, 41]

/-- The text of an atom is its contents, or its length, one whitespace character, and its contents. -/
theorem Derives.atom_text {grammar : SkelGrammar} {kind : TextKind} {text data : Bytes}
    (derives : Derives grammar kind text (.atom data)) :
    (kind = .implicit ∧ text = data) ∨
      (kind = .explicit ∧ ∃ digits space, text = digits ++ space :: data ∧ IsNumber digits ∧
        skelCharType space = .space) := by
  cases derives with
  | implicit name plain => exact Or.inl ⟨rfl, rfl⟩
  | explicit number isSpace size => exact Or.inr ⟨rfl, _, _, rfl, number, isSpace⟩

theorem trailing_differs : ¬ AsDocumented trailing := by
  intro documented
  obtain ⟨kind, derives⟩ := (documented (.atom [97])).mp (by rw [(parseSkelAt_places _).1]; rfl)
  rcases derives.atom_text with ⟨-, split⟩ | ⟨-, digits, space, split, -⟩
  · cases split
  · have last := congrArg List.getLast? split
    rw [List.getLast?_append_of_ne_nil _ (by simp)] at last
    exact absurd last (by simp [trailing])

theorem isSpaces_of_digit {spaces text more : Bytes} {byte : UInt8} (isSpaces : IsSpaces spaces)
    (split : byte :: more = spaces ++ text) (digit : isDigit byte) : spaces = [] := by
  cases spaces with
  | nil => rfl
  | cons first spaces =>
      cases split
      have space := isSpaces byte List.mem_cons_self
      rw [skelCharType_digit digit] at space
      cases space

/-- A number is as long as the digits in front. -/
theorem IsNumber.split_unique {first second : Bytes} (one : IsNumber first) (two : IsNumber second)
    {rest more : Bytes} (ends : NoDigitNext rest) (stops : NoDigitNext more)
    (same : first ++ rest = second ++ more) : first = second ∧ rest = more := by
  have read := @takeWhile_append_stop (fun byte => isDigit byte) first rest
    (fun byte member => by simpa using one.2 byte member)
    (fun byte others split => by simpa using ends byte others split)
  have again := @takeWhile_append_stop (fun byte => isDigit byte) second more
    (fun byte member => by simpa using two.2 byte member)
    (fun byte others split => by simpa using stops byte others split)
  rw [same] at read
  exact ⟨read.1.symm.trans again.1, read.2.symm.trans again.2⟩

/-- In the documented grammar, whitespace stands between the two atoms. The cases go from the front
of the text to its end. -/
theorem touching_differs : ¬ AsDocumented touching := by
  intro documented
  obtain ⟨kind, derives⟩ := (documented (.list [.atom [97], .atom [98]])).mp (by
    rw [(parseSkelAt_places _).1]
    rfl)
  have one : IsNumber [49] := ⟨by simp, by simp; decide⟩
  generalize isText : touching = text at derives
  cases derives with
  | @list text children elements =>
      have rest : text = [49, 32, 97, 49, 32, 98, 41] := (List.cons.inj isText).2.symm
      generalize atStart : (none : Option TextKind) = last at elements
      cases elements with
      | @element _ kind spaces text others child children isSpaces first _ elements =>
          have empty := isSpaces_of_digit isSpaces rest.symm (by decide)
          subst empty
          rcases first.atom_text with ⟨-, rfl⟩ | ⟨rfl, digits, space, rfl, number, isSpace⟩
          · cases rest
          · rw [List.nil_append, List.append_assoc, List.cons_append] at rest
            obtain ⟨-, behind⟩ := number.split_unique one (noDigitNext_space isSpace _)
              (@noDigitNext_space 32 (by decide) [97, 49, 32, 98, 41]) rest
            have rest : others = [49, 32, 98, 41] := (List.cons.inj (List.cons.inj behind).2).2
            generalize atMiddle : some TextKind.explicit = last at elements
            cases elements with
            | @element _ kind spaces text more child children isSpaces second separated elements =>
                have empty := isSpaces_of_digit isSpaces rest.symm (by decide)
                subst empty
                rcases separated rfl with impossible | impossible | isList
                · rw [← atMiddle] at impossible
                  cases impossible
                · rw [← atMiddle] at impossible
                  cases impossible
                · rw [isList] at second
                  cases second

theorem bracketed_differs : ¬ AsDocumented bracketed := by
  intro documented
  have atom : Derives documentedGrammar .implicit [97, 91] (.atom [97, 91]) :=
    Derives.implicit (by decide +kernel) (by decide +kernel)
  have noSpaces : IsSpaces [] := fun _ member => absurd member List.not_mem_nil
  have closes : Elements documentedGrammar (some .implicit) [41] [] := Elements.close noSpaces
  have elements : Elements documentedGrammar none [97, 91, 41] [.atom [97, 91]] :=
    Elements.element noSpaces atom (fun _ => Or.inl rfl) closes
  have parsed := (documented (.list [.atom [97, 91]])).mpr ⟨.list, Derives.list elements⟩
  rw [(parseSkelAt_places _).1] at parsed
  have refused : parseSkel bracketed = none := Option.isNone_iff_eq_none.mp (by decide +kernel)
  rw [refused] at parsed
  cases parsed

end Differences

/-- The documented grammar is not the accepted one in three ways. -/
theorem accepted_differs_from_documented :
    ¬ AsDocumented trailing ∧ ¬ AsDocumented touching ∧ ¬ AsDocumented bracketed :=
  ⟨trailing_differs, touching_differs, bracketed_differs⟩

end Subversion.Fs
