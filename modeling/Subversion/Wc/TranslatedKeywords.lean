/-
This file shows that keywords can be expanded and contracted again and again, and only the last time
matters.
-/

import Subversion.Wc.TranslatedText

namespace Subversion.Wc.Translate

open Delta

/-- The names of a keyword that has a value, with that value. -/
def valueNames (value : Option Bytes) (long short : Bytes) : List (Bytes × Bytes) :=
  match value with
  | none => []
  | some value => [(long, value), (short, value)]

/-- The names that are looked for, in order. -/
def Keywords.active (keywords : Keywords) : List (Bytes × Bytes) :=
  valueNames keywords.revision revisionLong revisionShort ++
    (valueNames keywords.date dateLong dateShort ++
      (valueNames keywords.author authorLong authorShort ++ valueNames keywords.url urlLong urlShort))

/-- A name is followed by the end of the keyword, or by a colon and spaces around the value. -/
def Named (middle name : Bytes) : Prop :=
  middle = name ∨ (name ++ [58, 32] <+: middle ∧ middle.getLast? = some 32)

instance (middle name : Bytes) : Decidable (Named middle name) :=
  inferInstanceAs (Decidable (_ ∨ _))

/-- Without a value, the keyword is contracted. -/
def imageOf (name : Bytes) : Option Bytes → Bytes
  | none => [36] ++ name ++ [36]
  | some value => expandedText name value

/-- What a keyword is replaced by. -/
def imageFor (expand : Bool) (entry : Bytes × Bytes) : Bytes :=
  imageOf entry.1 (if expand then some entry.2 else none)

/-- The keyword between two dollar signs. -/
def Keywords.find (keywords : Keywords) (middle : Bytes) : Option (Bytes × Bytes) :=
  keywords.active.find? fun entry => Named middle entry.1

/-- A byte that neither ends a keyword nor a line. -/
def Inner (c : UInt8) : Prop := c ≠ 36 ∧ ¬ IsNewline c

instance (c : UInt8) : Decidable (Inner c) := inferInstanceAs (Decidable (_ ∧ _))

/-- The values are free of dollar signs and newlines, and the longest keyword holds them. -/
def Keywords.Plain (keywords : Keywords) : Prop :=
  ∀ entry ∈ keywords.active, (∀ c ∈ entry.2, Inner c) ∧
    (expandedText entry.1 entry.2).length ≤ keywordMaxLen

instance (keywords : Keywords) : Decidable keywords.Plain :=
  inferInstanceAs (Decidable (∀ entry ∈ keywords.active, _))

/-- The same keywords have values. -/
def SameNames (first second : Keywords) : Prop :=
  first.active.map Prod.fst = second.active.map Prod.fst

instance (first second : Keywords) : Decidable (SameNames first second) :=
  inferInstanceAs (Decidable (_ = _))

section Names

variable {middle name value : Bytes}

theorem Named.starts (named : Named middle name) : name <+: middle := by
  rcases named with rfl | ⟨starts, -⟩
  · exact List.prefix_refl _
  · exact (List.prefix_append _ _).trans starts

theorem named_append (name tail : Bytes) :
    Named (name ++ tail) name ↔ tail = [] ∨ ([58, 32] <+: tail ∧ tail.getLast? = some 32) := by
  refine or_congr (by simp) ⟨?_, ?_⟩
  · rintro ⟨starts, last⟩
    have marked := (List.prefix_append_right_inj name).mp starts
    obtain ⟨rest, rfl⟩ := marked
    refine ⟨List.prefix_append _ _, ?_⟩
    rwa [List.getLast?_append_of_ne_nil _ (by simp)] at last
  · rintro ⟨marked, last⟩
    refine ⟨(List.prefix_append_right_inj name).mpr marked, ?_⟩
    rw [List.getLast?_append, last]
    rfl

theorem last_before_dollar (front : Bytes) (last : UInt8) :
    (36 :: (front ++ [last]) ++ [36])[(36 :: (front ++ [last]) ++ [36]).length - 2]? = some last := by
  have length : (36 :: (front ++ [last]) ++ [36]).length - 2 = (36 :: front).length := by simp
  have split : 36 :: (front ++ [last]) ++ [36] = 36 :: front ++ last :: [36] := by simp
  rw [length, split, List.getElem?_append_right (le_refl _), Nat.sub_self]
  rfl

theorem marked_iff (name : Bytes) {tail : Bytes} (open' : tail ≠ []) :
    (4 + name.length ≤ (36 :: (name ++ tail) ++ [36]).length ∧ (tail ++ [36]).take 2 = [58, 32] ∧
        (36 :: (name ++ tail) ++ [36])[(36 :: (name ++ tail) ++ [36]).length - 2]? = some 32) ↔
      [58, 32] <+: tail ∧ tail.getLast? = some 32 := by
  obtain ⟨front, last, rfl⟩ := (List.eq_nil_or_concat tail).resolve_left open'
  rw [List.concat_eq_append, ← List.append_assoc, last_before_dollar, List.getLast?_concat,
    List.prefix_iff_eq_take]
  cases front with
  | nil => simp
  | cons c front =>
      cases front <;> simp <;> grind

/-- Between two dollar signs, a keyword is found by its name. -/
theorem translateKeywordSubst_named (closed : ∀ c ∈ middle, c ≠ 36) (value : Option Bytes) :
    translateKeywordSubst (36 :: middle ++ [36]) name value =
      if Named middle name then some (imageOf name value) else none := by
  unfold translateKeywordSubst
  by_cases starts : name <+: middle
  · obtain ⟨tail, rfl⟩ := starts
    have front : ((36 :: (name ++ tail) ++ [36]).drop 1).take name.length = name := by simp
    have behind : (36 :: (name ++ tail) ++ [36]).drop (1 + name.length) = tail ++ [36] := by
      rw [Nat.add_comm, List.cons_append, List.drop_succ_cons, List.append_assoc, List.drop_left]
    rw [if_neg (by simp), front, if_neg (by simp), behind]
    by_cases none' : tail = []
    · subst none'
      rw [if_pos (by rfl), if_pos ((named_append name []).mpr (Or.inl rfl))]
      cases value with
      | none => simp [imageOf]
      | some value => rfl
    · have notDollar : (tail ++ [36]).head? ≠ some 36 := by
        intro same
        obtain ⟨c, rest, rfl⟩ := List.exists_cons_of_ne_nil none'
        exact closed c (by simp) (Option.some.inj same)
      rw [if_neg notDollar]
      by_cases marked : [58, 32] <+: tail ∧ tail.getLast? = some 32
      · rw [if_pos ((marked_iff name none').mpr marked), if_pos ((named_append name tail).mpr (Or.inr marked))]
        cases value <;> rfl
      · have other : ¬ Named (name ++ tail) name := fun named =>
          ((named_append name tail).mp named).elim none' marked
        rw [if_neg (fun found => marked ((marked_iff name none').mp found)), if_neg other]
  · have other : ¬ Named middle name := fun named => starts named.starts
    rw [if_neg other]
    split
    · rfl
    · next long =>
        have room : name.length ≤ middle.length := by simpa using long
        rw [if_pos]
        intro same
        rw [List.cons_append, List.drop_succ_cons, List.drop_zero, List.take_append_of_le_length room] at same
        exact starts (same ▸ List.take_prefix _ _)

theorem translateEither_named (closed : ∀ c ∈ middle, c ≠ 36) (expand : Bool) (value : Option Bytes)
    (long short : Bytes) :
    translateEither (36 :: middle ++ [36]) expand value long short =
      ((valueNames value long short).find? fun entry => Named middle entry.1).map (imageFor expand) := by
  cases value with
  | none => rfl
  | some value =>
      rw [translateEither, translateKeywordSubst_named closed, translateKeywordSubst_named closed, valueNames,
        List.find?_cons, List.find?_cons]
      by_cases first : Named middle long
      · simp [first, imageFor]
      · by_cases second : Named middle short
        · simp [first, second, imageFor]
        · simp [first, second]

/-- Between two dollar signs, the first keyword with such a name is found. -/
theorem translateKeyword_named (closed : ∀ c ∈ middle, c ≠ 36) (expand : Bool) (keywords : Keywords) :
    translateKeyword (36 :: middle ++ [36]) expand (some keywords) =
      (keywords.find middle).map (imageFor expand) := by
  rw [translateKeyword, translateEither_named closed, translateEither_named closed,
    translateEither_named closed, translateEither_named closed, Keywords.find, Keywords.active,
    List.find?_append, List.find?_append, List.find?_append, Option.map_or, Option.map_or, Option.map_or]

theorem valueNames_subset {value : Option Bytes} {long short : Bytes} {entry : Bytes × Bytes}
    (member : entry ∈ valueNames value long short) : entry.1 ∈ [long, short] := by
  cases value with
  | none => cases member
  | some value => simpa [valueNames] using List.mem_map_of_mem (f := Prod.fst) member

/-- No name holds a colon, a dollar sign, or a newline. -/
theorem active_name {keywords : Keywords} {entry : Bytes × Bytes} (member : entry ∈ keywords.active) :
    ∀ c ∈ entry.1, c ≠ 58 ∧ Inner c := by
  have all : ∀ name ∈ [revisionLong, revisionShort] ++ ([dateLong, dateShort] ++
      ([authorLong, authorShort] ++ [urlLong, urlShort])), ∀ c ∈ name, c ≠ 58 ∧ Inner c := by
    decide +kernel
  refine all _ ?_
  rw [Keywords.active] at member
  rw [List.mem_append, List.mem_append, List.mem_append] at member ⊢
  exact member.imp valueNames_subset
    (Or.imp valueNames_subset (Or.imp valueNames_subset valueNames_subset))

/-- The name ends where the keyword does or with its colon. -/
theorem Named.unique {other : Bytes} (first : Named middle name) (second : Named middle other)
    (plain : ∀ c ∈ name, c ≠ 58) (otherPlain : ∀ c ∈ other, c ≠ 58) : name = other := by
  have front : ∀ {name : Bytes}, Named middle name → (∀ c ∈ name, c ≠ 58) →
      middle.takeWhile (fun c => c ≠ 58) = name := by
    intro name named plain
    rcases named with rfl | ⟨⟨rest, rfl⟩, -⟩
    · have whole : (middle ++ []).takeWhile (fun c => c ≠ 58) = middle ++ [].takeWhile fun c => c ≠ 58 :=
        List.takeWhile_append_of_pos (by simpa using plain)
      simpa using whole
    · rw [List.append_assoc, List.takeWhile_append_of_pos (by simpa using plain)]
      simp
  exact (front first plain).symm.trans (front second otherPlain)

variable {keywords first second : Keywords} {entry : Bytes × Bytes}

theorem find_active (found : keywords.find middle = some entry) : entry ∈ keywords.active :=
  List.mem_of_find?_eq_some found

theorem find_named (found : keywords.find middle = some entry) : Named middle entry.1 := by
  simpa using List.find?_some found

/-- What is found depends only on the names. -/
theorem find_same (same : SameNames first second) (middle : Bytes) :
    (first.find middle).map Prod.fst = (second.find middle).map Prod.fst := by
  have names : ∀ keywords : Keywords, (keywords.find middle).map Prod.fst =
      (keywords.active.map Prod.fst).find? fun name => Named middle name := by
    intro keywords
    rw [List.find?_map]
    rfl
  rw [names, names, same]

/-- Between the dollar signs, only the name matters. -/
theorem find_again {again : Bytes} (found : keywords.find middle = some entry)
    (named : Named again entry.1) : keywords.find again = keywords.find middle := by
  have closed := fun {other} (member : other ∈ keywords.active) c (inside : c ∈ other.1) =>
    (active_name member c inside).1
  have here := closed (find_active found)
  rw [Keywords.find, Keywords.find]
  refine List.find?_congr fun other member => ?_
  have there := closed member
  rw [decide_eq_decide]
  constructor
  · intro same
    rw [← named.unique same here there]
    exact find_named found
  · intro same
    rw [← (find_named found).unique same here there]
    exact named

theorem strncpy_inner {value : Bytes} (plain : ∀ c ∈ value, Inner c) (len : Nat) :
    ∀ c ∈ strncpy value len, Inner c := by
  intro c member
  rw [strncpy] at member
  rcases List.mem_append.mp member with inside | filled
  · exact plain c (List.takeWhile_subset _ (List.mem_of_mem_take inside))
  · rw [List.eq_of_mem_replicate filled]
    decide

/-- An image is again a keyword of the same name. -/
theorem imageFor_middle (name : ∀ c ∈ entry.1, Inner c) (plain : ∀ c ∈ entry.2, Inner c) (expand : Bool) :
    ∃ middle, imageFor expand entry = 36 :: middle ++ [36] ∧ Named middle entry.1 ∧
      ∀ c ∈ middle, Inner c := by
  cases expand with
  | false => exact ⟨entry.1, rfl, Or.inl rfl, name⟩
  | true =>
      have marks : ∀ c ∈ [58, 32], Inner c := by decide +kernel
      by_cases empty : entry.2 = []
      · refine ⟨entry.1 ++ [58, 32], ?_, Or.inr ⟨List.prefix_refl _, by simp⟩, ?_⟩
        · simp [imageFor, imageOf, expandedText, empty]
        · exact List.forall_mem_append.mpr ⟨name, marks⟩
      · refine ⟨entry.1 ++ [58, 32] ++ strncpy entry.2 (min entry.2.length (keywordMaxLen - 5)) ++ [32], ?_,
          Or.inr ⟨?_, List.getLast?_concat⟩, ?_⟩
        · simp [imageFor, imageOf, expandedText, empty]
        · rw [List.append_assoc]
          exact List.prefix_append _ _
        · refine List.forall_mem_append.mpr ⟨List.forall_mem_append.mpr
            ⟨List.forall_mem_append.mpr ⟨name, marks⟩, strncpy_inner plain _⟩, by decide +kernel⟩

end Names

/-- No dollar sign begins a run that is as long as the longest keyword. -/
def ShortRuns (contents : Bytes) : Prop :=
  ∀ before run after, contents = before ++ 36 :: (run ++ after) → (∀ c ∈ run, Inner c) →
    run.length < keywordMaxLen - 1

/-- A piece without the keyword that it replaces. -/
def Piece.result : Piece → Piece
  | .keyword _ image => .keyword [] image
  | piece => piece

section Again

variable {params : Params} {keywords : Keywords} {middle : Bytes}

theorem ShortRuns.suffix (first : Bytes) {second : Bytes} (short : ShortRuns (first ++ second)) :
    ShortRuns second := by
  intro before run after same plain
  exact short (first ++ before) run after (by rw [same, List.append_assoc]) plain

theorem shortRuns_small {contents : Bytes} (small : contents.length < keywordMaxLen) : ShortRuns contents := by
  intro before run after same _
  rw [same] at small
  simp at small
  omega

/-- A run only grows by a byte that ends nothing. -/
theorem scan_inner {c : UInt8} (inner : Inner c)
    (room : middle.length + 2 < keywordMaxLen) (rest : Bytes) :
    scanFrom params ⟨[], 36 :: middle⟩ (c :: rest) = scanFrom params ⟨[], 36 :: (middle ++ [c])⟩ rest := by
  have full : ¬ keywordMaxLen ≤ (36 :: middle).length + 1 := by
    rw [List.length_cons]
    omega
  rw [scanFrom, scanByte, if_neg inner.1, if_neg (show ¬ (c = 10 ∨ c = 13) from inner.2), if_neg (by simp),
    if_neg full]
  rfl

theorem scan_run (plain : ∀ c ∈ middle, Inner c) (rest : Bytes) :
    ∀ front : Bytes, front.length + middle.length + 1 < keywordMaxLen →
      scanFrom params ⟨[], 36 :: front⟩ (middle ++ rest) =
        scanFrom params ⟨[], 36 :: (front ++ middle)⟩ rest := by
  induction middle with
  | nil =>
      intro front _
      rw [List.append_nil, List.nil_append]
  | cons c middle ih =>
      intro front room
      rw [List.length_cons] at room
      rw [List.cons_append, scan_inner (plain c List.mem_cons_self) (by omega),
        ih (fun d member => plain d (List.mem_cons_of_mem c member)) (front ++ [c]) (by simp; omega)]
      simp

theorem scan_open (active : params.keywords ≠ none) (rest : Bytes) :
    scanFrom params ⟨[], []⟩ (36 :: rest) = scanFrom params ⟨[], [36]⟩ rest := by
  rw [scanFrom, scanByte, if_pos rfl, if_neg active, if_pos rfl]
  rfl

/-- From its dollar sign, a short run is pending. -/
theorem scan_dollar (active : params.keywords ≠ none)
    (plain : ∀ c ∈ middle, Inner c) (room : middle.length + 1 < keywordMaxLen) (rest : Bytes) :
    scanFrom params ⟨[], []⟩ (36 :: (middle ++ rest)) = scanFrom params ⟨[], 36 :: middle⟩ rest := by
  rw [scan_open active, scan_run plain rest [] (by simpa using room)]
  rfl

variable {c : UInt8} {rest : Bytes}

theorem scan_byte (kept : params.eolStr = none) (notDollar : c ≠ 36) :
    scanFrom params ⟨[], []⟩ (c :: rest) = .byte c :: scanFrom params ⟨[], []⟩ rest := by
  rw [scanFrom, scanByte, if_neg notDollar]
  by_cases ends : c = 10 ∨ c = 13
  · rw [if_pos ends, if_pos kept]
    rfl
  · rw [if_neg ends, if_pos rfl]
    rfl

theorem scan_line (kept : params.eolStr = none) (isNewline : IsNewline c) :
    scanFrom params ⟨[], 36 :: middle⟩ (c :: rest) =
      .run (36 :: middle) :: .byte c :: scanFrom params ⟨[], []⟩ rest := by
  have notDollar : c ≠ 36 := by
    rintro rfl
    exact absurd isNewline (by decide)
  rw [scanFrom, scanByte, if_neg notDollar, if_pos (show c = 10 ∨ c = 13 from isNewline), if_pos kept]
  rfl

theorem scan_keyword {entry : Bytes × Bytes} (given : params.keywords = some keywords)
    (closed : ∀ c ∈ middle, c ≠ 36) (found : keywords.find middle = some entry) :
    scanFrom params ⟨[], 36 :: middle⟩ (36 :: rest) =
      .keyword (36 :: middle ++ [36]) (imageFor params.expand entry) :: scanFrom params ⟨[], []⟩ rest := by
  rw [scanFrom, scanByte, if_pos rfl, if_neg (by simp [given]), if_neg (by simp), given,
    translateKeyword_named closed, found]
  rfl

theorem scan_unknown (given : params.keywords = some keywords) (closed : ∀ c ∈ middle, c ≠ 36)
    (unknown : keywords.find middle = none) :
    scanFrom params ⟨[], 36 :: middle⟩ (36 :: rest) =
      .run (36 :: middle) :: scanFrom params ⟨[], [36]⟩ rest := by
  rw [scanFrom, scanByte, if_pos rfl, if_neg (by simp [given]), if_neg (by simp), given,
    translateKeyword_named closed, unknown]
  rfl

theorem imageFor_length (expand : Bool) (entry : Bytes × Bytes) :
    (imageFor expand entry).length ≤ (expandedText entry.1 entry.2).length := by
  cases expand with
  | true => exact le_refl _
  | false =>
      show ([36] ++ entry.1 ++ [36]).length ≤ _
      rw [expandedText]
      split <;> simp

variable {again : Params} {first second : Keywords}

theorem scan_again (kept : params.eolStr = none) (keptAgain : again.eolStr = none)
    (given : params.keywords = some first) (givenAgain : again.keywords = some second)
    (same : SameNames first second) (plain : first.Plain) (rest : Bytes) :
    (ShortRuns rest →
      (scanFrom again ⟨[], []⟩ (images params (scanFrom params ⟨[], []⟩ rest))).map Piece.result =
        (scanFrom again ⟨[], []⟩ rest).map Piece.result) ∧
    ∀ middle : Bytes, (∀ c ∈ middle, Inner c) → middle.length + 1 < keywordMaxLen →
      ShortRuns (36 :: (middle ++ rest)) →
      (scanFrom again ⟨[], []⟩ (images params (scanFrom params ⟨[], 36 :: middle⟩ rest))).map Piece.result =
        (scanFrom again ⟨[], 36 :: middle⟩ rest).map Piece.result := by
  have active : again.keywords ≠ none := by simp [givenAgain]
  induction rest with
  | nil =>
      refine ⟨fun _ => rfl, fun middle inner room _ => ?_⟩
      have written : images params (scanFrom params ⟨[], 36 :: middle⟩ []) = 36 :: (middle ++ []) := by
        simp [scanFrom, newlineOf, runOf, images, Piece.image]
      rw [written, scan_dollar active inner room]
  | cons c rest ih =>
      have opened : ShortRuns (36 :: rest) →
          (scanFrom again ⟨[], []⟩ (images params (scanFrom params ⟨[], [36]⟩ rest))).map Piece.result =
            (scanFrom again ⟨[], [36]⟩ rest).map Piece.result :=
        ih.2 [] (by simp) (by decide)
      constructor
      · intro short
        by_cases dollar : c = 36
        · subst dollar
          rw [scan_open (by simp [given]), scan_open active]
          exact opened short
        · have later : ShortRuns rest := ShortRuns.suffix [c] short
          rw [scan_byte kept dollar, scan_byte keptAgain dollar]
          show (scanFrom again ⟨[], []⟩ (c :: images params (scanFrom params ⟨[], []⟩ rest))).map Piece.result = _
          rw [scan_byte keptAgain dollar, List.map_cons, List.map_cons, ih.1 later]
      · intro middle inner room short
        have closed : ∀ c ∈ middle, c ≠ 36 := fun c inside => (inner c inside).1
        by_cases dollar : c = 36
        · subst dollar
          have shortAgain : ShortRuns (36 :: rest) := ShortRuns.suffix (36 :: middle) short
          have names := find_same same middle
          cases found : first.find middle with
          | none =>
              rw [found] at names
              have unknown : second.find middle = none := Option.map_eq_none_iff.mp names.symm
              obtain ⟨more, written⟩ := List.head?_eq_some_iff.mp
                (show (images params (scanFrom params ⟨[], [36]⟩ rest)).head? = some 36 from images_run rest [])
              have later := opened shortAgain
              rw [written, scan_open active] at later
              rw [scan_unknown given closed found, scan_unknown givenAgain closed unknown]
              show (scanFrom again ⟨[], []⟩
                (36 :: (middle ++ images params (scanFrom params ⟨[], [36]⟩ rest)))).map Piece.result = _
              rw [written, scan_dollar active inner room, scan_unknown givenAgain closed unknown,
                List.map_cons, List.map_cons, later]
          | some entry =>
              rw [found] at names
              obtain ⟨entryAgain, foundAgain, sameName⟩ := Option.map_eq_some_iff.mp names.symm
              have member := find_active found
              have later : ShortRuns rest := ShortRuns.suffix [36] shortAgain
              obtain ⟨image, whole, named, innerImage⟩ := imageFor_middle
                (fun c inside => (active_name member c inside).2) (plain entry member).1 params.expand
              have fits := (imageFor_length params.expand entry).trans (plain entry member).2
              have roomImage : image.length + 1 < keywordMaxLen := by
                rw [whole] at fits
                simp at fits
                omega
              have closedImage : ∀ c ∈ image, c ≠ 36 := fun c inside => (innerImage c inside).1
              have foundImage : second.find image = some entryAgain := by
                rw [find_again foundAgain (sameName ▸ named), foundAgain]
              rw [scan_keyword given closed found, scan_keyword givenAgain closed foundAgain, whole]
              have written : images params (.keyword (36 :: middle ++ [36]) (36 :: image ++ [36]) ::
                  scanFrom params ⟨[], []⟩ rest) =
                  36 :: (image ++ 36 :: images params (scanFrom params ⟨[], []⟩ rest)) := by
                simp [images, Piece.image]
              rw [written, scan_dollar active innerImage roomImage,
                scan_keyword givenAgain closedImage foundImage, List.map_cons, List.map_cons, ih.1 later]
              rfl
        · by_cases isNewline : IsNewline c
          · have later : ShortRuns rest :=
              ShortRuns.suffix (36 :: (middle ++ [c])) (by simpa using short)
            rw [scan_line kept isNewline, scan_line keptAgain isNewline]
            show (scanFrom again ⟨[], []⟩ (36 :: (middle ++ c :: images params (scanFrom params ⟨[], []⟩ rest)))).map
              Piece.result = _
            rw [scan_dollar active inner room, scan_line keptAgain isNewline]
            simp only [List.map_cons, ih.1 later]
          · have innerAgain : ∀ d ∈ middle ++ [c], Inner d :=
              List.forall_mem_append.mpr ⟨inner, by simpa using ⟨dollar, isNewline⟩⟩
            have shorter := short [] (middle ++ [c]) rest (by simp) innerAgain
            rw [List.length_append, List.length_singleton] at shorter
            have roomAgain : middle.length + 2 < keywordMaxLen := by omega
            rw [scan_inner ⟨dollar, isNewline⟩ roomAgain, scan_inner ⟨dollar, isNewline⟩ roomAgain]
            exact ih.2 (middle ++ [c]) innerAgain (by simpa using roomAgain) (by simpa using short)

/-- Short runs never fill the buffer, and plain values fit into it. -/
theorem scan_fits (kept : params.eolStr = none) (given : params.keywords = some keywords)
    (plain : keywords.Plain) (rest : Bytes) :
    (ShortRuns rest → ∀ ready, AllFit ready (scanFrom params ⟨[], []⟩ rest)) ∧
    ∀ middle : Bytes, (∀ c ∈ middle, Inner c) → ShortRuns (36 :: (middle ++ rest)) →
      ∀ ready, AllFit ready (scanFrom params ⟨[], 36 :: middle⟩ rest) := by
  have active : params.keywords ≠ none := by simp [given]
  induction rest with
  | nil => exact ⟨fun _ _ => trivial, fun _ _ _ _ => ⟨trivial, trivial⟩⟩
  | cons c rest ih =>
      constructor
      · intro short ready
        by_cases dollar : c = 36
        · subst dollar
          rw [scan_open active]
          exact ih.2 [] (by simp) short ready
        · rw [scan_byte kept dollar]
          exact ⟨trivial, ih.1 (short.suffix [c]) _⟩
      · intro middle inner short ready
        have closed : ∀ c ∈ middle, c ≠ 36 := fun c inside => (inner c inside).1
        have shortRest : ShortRuns rest := ShortRuns.suffix (36 :: (middle ++ [c])) (by simpa using short)
        by_cases dollar : c = 36
        · subst dollar
          cases found : keywords.find middle with
          | none =>
              rw [scan_unknown given closed found]
              exact ⟨trivial, ih.2 [] (by simp) (short.suffix (36 :: middle)) _⟩
          | some entry =>
              rw [scan_keyword given closed found]
              exact ⟨(imageFor_length _ entry).trans (plain entry (find_active found)).2, ih.1 shortRest _⟩
        · by_cases isNewline : IsNewline c
          · rw [scan_line kept isNewline]
            exact ⟨trivial, trivial, ih.1 shortRest _⟩
          · have innerAgain : ∀ d ∈ middle ++ [c], Inner d :=
              List.forall_mem_append.mpr ⟨inner, by simpa using ⟨dollar, isNewline⟩⟩
            have shorter := short [] (middle ++ [c]) rest (by simp) innerAgain
            rw [List.length_append, List.length_singleton] at shorter
            rw [scan_inner ⟨dollar, isNewline⟩ (by omega)]
            exact ih.2 (middle ++ [c]) innerAgain (by simpa using short) ready

theorem scanByte_tokens {pending : Pending} (kept : params.eolStr = none) (valid : pending.Valid params) :
    ∀ piece ∈ (scanByte params pending c).1, piece.token = none := by
  have none' : pending.newline = [] := by
    cases valid with
    | clean => rfl
    | run => rfl
    | newline _ translated => exact absurd kept translated
  have line : ∀ piece ∈ runOf pending.run ++ [.byte c], piece.token = none := by
    refine List.forall_mem_append.mpr ⟨?_, by simp [Piece.token]⟩
    rw [runOf]
    split <;> simp [Piece.token]
  rw [scanByte, none', if_pos kept]
  repeat' split
  all_goals first | exact line | simp [newlineOf, Piece.token]

/-- Without a translation of newlines, there are none. -/
theorem scan_tokens (kept : params.eolStr = none) (rest : Bytes) :
    ∀ pending : Pending, pending.Valid params →
      ∀ piece ∈ scanFrom params pending rest, piece.token = none := by
  induction rest with
  | nil =>
      rintro pending (_ | ⟨_, translated⟩ | _)
      · simp [scanFrom, newlineOf, runOf]
      · exact absurd kept translated
      · simp [scanFrom, newlineOf, runOf, Piece.token]
  | cons c rest ih =>
      intro pending valid piece member
      rw [scanFrom] at member
      rcases List.mem_append.mp member with here | later
      · exact scanByte_tokens kept valid piece here
      · exact ih _ (scanByte_valid valid c) piece later

theorem noneLost_tokens {pieces : List Piece} (quiet : ∀ piece ∈ pieces, piece.token = none) :
    NoneLost pieces := by
  have lone : ∀ piece ∈ pieces, piece.lone = false := by
    intro piece member
    have none' := quiet piece member
    cases piece with
    | newline => cases none'
    | _ => rfl
  have whole := (noneLost_quiet pieces [] lone).mpr List.isChain_nil
  rwa [List.append_nil] at whole

theorem accept_tokens {pieces : List Piece} (quiet : ∀ piece ∈ pieces, piece.token = none) :
    accept params [] pieces = some [] := by
  induction pieces with
  | nil => rfl
  | cons piece pieces ih =>
      rw [accept_cons, acceptPiece_other (quiet piece List.mem_cons_self), Option.bind_some]
      exact ih fun other member => quiet other (List.mem_cons_of_mem piece member)

theorem copyAndTranslate_fits (kept : params.eolStr = none) {contents : Bytes}
    (fit : AllFit false (piecesOf params contents)) :
    copyAndTranslate params contents = .ok (images params (piecesOf params contents)) := by
  have quiet := scan_tokens kept contents _ .clean
  rw [copyAndTranslate_pieces contents (noneLost_tokens quiet) fit]
  exact copyOf_accepted (by rw [piecesOf, accept_tokens quiet]; simp)

theorem images_result (params : Params) (pieces : List Piece) :
    images params (pieces.map Piece.result) = images params pieces := by
  rw [images, images, List.flatMap_map]
  refine List.flatMap_congr fun piece _ => ?_
  cases piece <;> rfl

theorem allFit_result (pieces : List Piece) :
    ∀ ready, AllFit ready (pieces.map Piece.result) ↔ AllFit ready pieces := by
  induction pieces with
  | nil => exact fun _ => Iff.rfl
  | cons piece pieces ih =>
      intro ready
      rw [List.map_cons, AllFit, AllFit, ih]
      cases piece <;> exact Iff.rfl

/-- A translation of keywords hides the ones before it. -/
theorem copyAndTranslate_again (kept : params.eolStr = none) (keptAgain : again.eolStr = none)
    (given : params.keywords = some first) (givenAgain : again.keywords = some second)
    (same : SameNames first second) (plain : first.Plain) (plainAgain : second.Plain) {contents : Bytes}
    (short : ShortRuns contents) :
    copyAndTranslate params contents = .ok (images params (piecesOf params contents)) ∧
      copyAndTranslate again contents = .ok (images again (piecesOf again contents)) ∧
      copyAndTranslate again (images params (piecesOf params contents)) =
        .ok (images again (piecesOf again contents)) := by
  have fit := (scan_fits kept given plain contents).1 short false
  have fitAgain := (scan_fits keptAgain givenAgain plainAgain contents).1 short false
  have results : (piecesOf again (images params (piecesOf params contents))).map Piece.result =
      (piecesOf again contents).map Piece.result :=
    (scan_again kept keptAgain given givenAgain same plain contents).1 short
  have fitResult : AllFit false (piecesOf again (images params (piecesOf params contents))) := by
    rw [← allFit_result, results, allFit_result]
    exact fitAgain
  refine ⟨copyAndTranslate_fits kept fit, copyAndTranslate_fits keptAgain fitAgain, ?_⟩
  rw [copyAndTranslate_fits keptAgain fitResult, ← images_result, results, images_result]

/-- The name of the file and the repair of newlines play no part. -/
theorem piecesOf_src (src srcAgain : String) (repair repairAgain : Bool) (keywords : Keywords)
    (expand : Bool) (contents : Bytes) :
    piecesOf ⟨src, none, repair, some keywords, expand⟩ contents =
      piecesOf ⟨srcAgain, none, repairAgain, some keywords, expand⟩ contents := by
  have all : ∀ pending, scanFrom ⟨src, none, repair, some keywords, expand⟩ pending contents =
      scanFrom ⟨srcAgain, none, repairAgain, some keywords, expand⟩ pending contents := by
    induction contents with
    | nil => exact fun _ => rfl
    | cons c rest ih =>
        intro pending
        rw [scanFrom, scanFrom, ih]
        rfl
  exact all _

/-- Contracting undoes expanding and is idempotent, and keywords can be expanded again. -/
theorem copyAndTranslate_keywords (src srcAgain : String) (repair repairAgain : Bool)
    (first second : Keywords) (contents : Bytes) (same : SameNames first second) (plain : first.Plain)
    (plainAgain : second.Plain) (short : ShortRuns contents) :
    ∃ expanded contracted reexpanded,
      copyAndTranslate ⟨src, none, repair, some first, true⟩ contents = .ok expanded ∧
      copyAndTranslate ⟨src, none, repair, some second, false⟩ contents = .ok contracted ∧
      copyAndTranslate ⟨src, none, repair, some second, true⟩ contents = .ok reexpanded ∧
      copyAndTranslate ⟨srcAgain, none, repairAgain, some second, false⟩ expanded = .ok contracted ∧
      copyAndTranslate ⟨srcAgain, none, repairAgain, some second, false⟩ contracted = .ok contracted ∧
      copyAndTranslate ⟨srcAgain, none, repairAgain, some second, true⟩ expanded = .ok reexpanded := by
  have contract : (Params.mk srcAgain none repairAgain (some second) false).eolStr = none := rfl
  have expand : (Params.mk srcAgain none repairAgain (some second) true).eolStr = none := rfl
  obtain ⟨expanded, -, contracted⟩ := copyAndTranslate_again
    (show (Params.mk src none repair (some first) true).eolStr = none from rfl) contract rfl rfl same
    plain plainAgain short
  obtain ⟨direct, -, idempotent⟩ := copyAndTranslate_again
    (show (Params.mk src none repair (some second) false).eolStr = none from rfl) contract rfl rfl
    (Eq.refl _) plainAgain plainAgain short
  obtain ⟨-, -, reexpanded⟩ := copyAndTranslate_again
    (show (Params.mk src none repair (some first) true).eolStr = none from rfl) expand rfl rfl same
    plain plainAgain short
  obtain ⟨expandedAgain, -, -⟩ := copyAndTranslate_again
    (show (Params.mk src none repair (some second) true).eolStr = none from rfl) expand rfl rfl
    (Eq.refl _) plainAgain plainAgain short
  refine ⟨_, _, _, expanded, direct, expandedAgain, ?_, ?_, ?_⟩
  · rw [contracted, piecesOf_src srcAgain src repairAgain repair]
    rfl
  · rw [idempotent, piecesOf_src srcAgain src repairAgain repair]
    rfl
  · rw [reexpanded, piecesOf_src srcAgain src repairAgain repair]
    rfl

/-- The keyword `Rev` with the value `10`. -/
def revisionTen : Keywords := ⟨some [49, 48], none, none, none⟩

theorem copyAndTranslate_keywords_revision :
    ∃ expanded contracted reexpanded,
      copyAndTranslate ⟨"iota", none, false, some revisionOne, true⟩ [36, 82, 101, 118, 36, 36] =
        .ok expanded ∧
      copyAndTranslate ⟨"iota", none, false, some revisionTen, false⟩ [36, 82, 101, 118, 36, 36] =
        .ok contracted ∧
      copyAndTranslate ⟨"iota", none, false, some revisionTen, true⟩ [36, 82, 101, 118, 36, 36] =
        .ok reexpanded ∧
      copyAndTranslate ⟨"copy", none, false, some revisionTen, false⟩ expanded = .ok contracted ∧
      copyAndTranslate ⟨"copy", none, false, some revisionTen, false⟩ contracted = .ok contracted ∧
      copyAndTranslate ⟨"copy", none, false, some revisionTen, true⟩ expanded = .ok reexpanded :=
  copyAndTranslate_keywords "iota" "copy" false false revisionOne revisionTen [36, 82, 101, 118, 36, 36]
    (by decide +kernel) (by decide +kernel) (by decide +kernel) (shortRuns_small (by decide))

end Again

end Subversion.Wc.Translate
