/-
This file cuts a file into newlines, keywords, and other bytes, and shows when a translation keeps
the other bytes.
-/

import Subversion.Wc.Translate

namespace Subversion.Wc.Translate

open Delta

/-- A run is a dollar sign and what follows it, when that is no keyword. A full run is as long as
the longest keyword. -/
inductive Piece where
  | byte (c : UInt8)
  | run (bytes : Bytes)
  | full (bytes : Bytes)
  | newline (token : Bytes)
  | keyword (pattern image : Bytes)
  deriving DecidableEq, Repr

def Piece.source : Piece → Bytes
  | .byte c => [c]
  | .run bytes => bytes
  | .full bytes => bytes
  | .newline token => token
  | .keyword pattern _ => pattern

/-- Only newlines and keywords are changed. -/
def Piece.image (params : Params) : Piece → Bytes
  | .byte c => [c]
  | .run bytes => bytes
  | .full bytes => bytes
  | .newline _ => params.eolStr.getD []
  | .keyword _ image => image

def sources (pieces : List Piece) : Bytes := pieces.flatMap Piece.source

def images (params : Params) (pieces : List Piece) : Bytes := pieces.flatMap (Piece.image params)

/-- A newline or a run that may still go on. -/
structure Pending where
  newline : Bytes
  run : Bytes
  deriving DecidableEq, Repr

def newlineOf (newline : Bytes) : List Piece := if newline = [] then [] else [.newline newline]

def runOf (run : Bytes) : List Piece := if run = [] then [] else [.run run]

/-- The pieces that end in front of a byte or with it. -/
def scanByte (params : Params) (pending : Pending) (c : UInt8) : List Piece × Pending :=
  if c = 36 then
    if params.keywords = none then (newlineOf pending.newline ++ [.byte c], ⟨[], []⟩)
    else if pending.run = [] then (newlineOf pending.newline, ⟨[], [c]⟩)
    else
      match translateKeyword (pending.run ++ [c]) params.expand params.keywords with
      | some image => ([.keyword (pending.run ++ [c]) image], ⟨[], []⟩)
      | none => ([.run pending.run], ⟨[], [c]⟩)
  else if c = 10 ∨ c = 13 then
    if params.eolStr = none then (runOf pending.run ++ [.byte c], ⟨[], []⟩)
    else if pending.newline = [] then (runOf pending.run, ⟨[c], []⟩)
    else if pending.newline = [13] ∧ c = 10 then ([.newline [13, 10]], ⟨[], []⟩)
    else ([.newline pending.newline], ⟨[c], []⟩)
  else if pending.run = [] then (newlineOf pending.newline ++ [.byte c], ⟨[], []⟩)
  else if keywordMaxLen ≤ pending.run.length + 1 then ([.full (pending.run ++ [c])], ⟨[], []⟩)
  else ([], ⟨[], pending.run ++ [c]⟩)

def scanFrom (params : Params) : Pending → Bytes → List Piece
  | pending, [] => newlineOf pending.newline ++ runOf pending.run
  | pending, c :: rest =>
      (scanByte params pending c).1 ++ scanFrom params (scanByte params pending c).2 rest

/-- The pieces of a file, one after another. -/
def piecesOf (params : Params) (contents : Bytes) : List Piece := scanFrom params ⟨[], []⟩ contents

def IsNewline (c : UInt8) : Prop := c = 10 ∨ c = 13

instance (c : UInt8) : Decidable (IsNewline c) := inferInstanceAs (Decidable (_ ∨ _))

/-- At most one of the two is pending, and a run is shorter than the longest keyword. -/
inductive Pending.Valid (params : Params) : Pending → Prop where
  | clean : Valid params ⟨[], []⟩
  | newline {c : UInt8} (isNewline : IsNewline c) (translated : params.eolStr ≠ none) :
      Valid params ⟨[c], []⟩
  | run {bytes : Bytes} (active : params.keywords ≠ none)
      (plain : ∀ c ∈ bytes, c ≠ 36 ∧ ¬ IsNewline c) (short : bytes.length + 1 < keywordMaxLen) :
      Valid params ⟨[], 36 :: bytes⟩

section Scan

variable {params : Params} {pending : Pending} {c : UInt8}

theorem scanByte_valid (valid : pending.Valid params) (c : UInt8) :
    (scanByte params pending c).2.Valid params := by
  rw [scanByte]
  by_cases dollar : c = 36
  · subst dollar
    rw [if_pos rfl]
    by_cases inactive : params.keywords = none
    · rw [if_pos inactive]
      exact .clean
    · have opened : Pending.Valid params ⟨[], [36]⟩ := .run inactive (by simp) (by decide)
      rw [if_neg inactive]
      split
      · exact opened
      · split
        · exact .clean
        · exact opened
  · rw [if_neg dollar]
    by_cases ends : c = 10 ∨ c = 13
    · rw [if_pos ends]
      by_cases kept : params.eolStr = none
      · rw [if_pos kept]
        exact .clean
      · rw [if_neg kept]
        split
        · exact .newline ends kept
        · split
          · exact .clean
          · exact .newline ends kept
    · rw [if_neg ends]
      split
      · exact .clean
      · next open' =>
          split
          · exact .clean
          · next more =>
              cases valid with
              | clean => exact absurd rfl open'
              | newline => exact absurd rfl open'
              | @run bytes active plain short =>
                  rw [List.length_cons] at more
                  refine show Pending.Valid params ⟨[], 36 :: (bytes ++ [c])⟩ from .run active ?_ ?_
                  · intro d member
                    rcases List.mem_append.mp member with member | member
                    · exact plain d member
                    · rw [List.mem_singleton.mp member]
                      exact ⟨dollar, ends⟩
                  · rw [List.length_append, List.length_singleton]
                    omega

/-- The pieces and what is pending hold all that was read. -/
theorem scanByte_source (valid : pending.Valid params) (c : UInt8) :
    sources (scanByte params pending c).1 ++
        ((scanByte params pending c).2.newline ++ (scanByte params pending c).2.run) =
      pending.newline ++ pending.run ++ [c] := by
  cases valid with
  | clean => 
      rw [scanByte]
      repeat' split
      all_goals simp_all [sources, newlineOf, runOf, Piece.source]
  | newline isNewline translated =>
      rw [scanByte]
      repeat' split
      all_goals simp_all [sources, newlineOf, runOf, Piece.source]
  | run active plain short =>
      rw [scanByte]
      repeat' split
      all_goals simp_all [sources, newlineOf, runOf, Piece.source]

theorem sources_append (first second : List Piece) :
    sources (first ++ second) = sources first ++ sources second :=
  List.flatMap_append

theorem images_append (params : Params) (first second : List Piece) :
    images params (first ++ second) = images params first ++ images params second :=
  List.flatMap_append

theorem scan_source (rest : Bytes) :
    ∀ pending : Pending, pending.Valid params →
      sources (scanFrom params pending rest) = pending.newline ++ pending.run ++ rest := by
  induction rest with
  | nil =>
      rintro pending (_ | _ | _)
      all_goals simp [scanFrom, sources, newlineOf, runOf, Piece.source]
  | cons c rest ih =>
      intro pending valid
      rw [scanFrom, sources_append, ih _ (scanByte_valid valid c), ← List.append_assoc,
        scanByte_source valid c]
      simp

/-- The pieces are all of the file, one after another. -/
theorem sources_piecesOf (params : Params) (contents : Bytes) :
    sources (piecesOf params contents) = contents := by
  rw [piecesOf, scan_source contents _ .clean]
  rfl

theorem scanByte_nonempty (valid : pending.Valid params) (c : UInt8) :
    ∀ piece ∈ (scanByte params pending c).1, piece.source ≠ [] := by
  cases valid with
  | clean =>
      rw [scanByte]
      repeat' split
      all_goals simp_all [newlineOf, runOf, Piece.source]
  | newline isNewline translated =>
      rw [scanByte]
      repeat' split
      all_goals simp_all [newlineOf, runOf, Piece.source]
  | run active plain short =>
      rw [scanByte]
      repeat' split
      all_goals simp_all [newlineOf, runOf, Piece.source]

theorem scan_nonempty (rest : Bytes) :
    ∀ pending : Pending, pending.Valid params →
      ∀ piece ∈ scanFrom params pending rest, piece.source ≠ [] := by
  induction rest with
  | nil =>
      rintro pending (_ | _ | _)
      all_goals simp [scanFrom, newlineOf, runOf, Piece.source]
  | cons c rest ih =>
      intro pending valid piece member
      rw [scanFrom] at member
      rcases List.mem_append.mp member with here | later
      · exact scanByte_nonempty valid c piece here
      · exact ih _ (scanByte_valid valid c) piece later

/-- The first piece begins with what was pending, or else with the next byte. -/
theorem scan_head (valid : pending.Valid params) {rest more : Bytes} {first : UInt8}
    (begins : pending.newline ++ pending.run ++ rest = first :: more) :
    ∃ piece pieces, scanFrom params pending rest = piece :: pieces ∧
      piece.source.head? = some first := by
  have whole := scan_source rest pending valid
  have solid := scan_nonempty rest pending valid
  rw [begins] at whole
  cases parts : scanFrom params pending rest with
  | nil =>
      rw [parts] at whole
      cases whole
  | cons piece pieces =>
      refine ⟨piece, pieces, rfl, ?_⟩
      rw [parts] at whole solid
      have nonempty := solid piece List.mem_cons_self
      cases source : piece.source with
      | nil => exact absurd source nonempty
      | cons d bytes =>
          rw [sources, List.flatMap_cons, source, List.cons_append] at whole
          rw [(List.cons.inj whole).1]
          rfl

end Scan

/-- A newline that is a single byte. -/
def Piece.lone : Piece → Bool
  | .newline token => token.length = 1
  | _ => false

/-- Whether the length that was measured last is that of the longest keyword. -/
def Piece.ready (ready : Bool) : Piece → Bool
  | .byte c => ready && !decide (IsNewline c)
  | .run bytes => bytes.length + 1 = keywordMaxLen
  | .full _ => ready
  | .newline _ => false
  | .keyword _ image => image.length = keywordMaxLen

/-- A full run is written with the length that was measured last, and the image of a keyword is made
in a buffer. -/
def Piece.Fits (ready : Bool) : Piece → Prop
  | .full _ => ready = true
  | .keyword _ image => image.length ≤ keywordMaxLen
  | _ => True

instance (ready : Bool) : ∀ piece : Piece, Decidable (piece.Fits ready)
  | .full _ => inferInstanceAs (Decidable (ready = true))
  | .keyword _ image => inferInstanceAs (Decidable (image.length ≤ keywordMaxLen))
  | .byte _ => .isTrue trivial
  | .run _ => .isTrue trivial
  | .newline _ => .isTrue trivial

def AllFit : Bool → List Piece → Prop
  | _, [] => True
  | ready, piece :: rest => piece.Fits ready ∧ AllFit (piece.ready ready) rest

instance decidableAllFit : ∀ (ready : Bool) (pieces : List Piece), Decidable (AllFit ready pieces)
  | _, [] => .isTrue trivial
  | ready, piece :: rest =>
      have := decidableAllFit (piece.ready ready) rest
      inferInstanceAs (Decidable (_ ∧ _))

/-- No dollar sign stands directly behind a lone newline that is translated. -/
def NoneLost (pieces : List Piece) : Prop :=
  pieces.IsChain fun first second => ¬ (first.lone = true ∧ second.source.head? = some 36)

instance (pieces : List Piece) : Decidable (NoneLost pieces) :=
  inferInstanceAs (Decidable (List.IsChain _ _))

/-- The format of the first newline is kept, and others are compared with it. -/
def acceptPiece (params : Params) (srcFormat : Bytes) : Piece → Option Bytes
  | .newline token =>
      if srcFormat = [] then some token
      else if params.repair = false ∧ srcFormat ≠ token then none
      else some srcFormat
  | _ => some srcFormat

def accept (params : Params) (srcFormat : Bytes) (pieces : List Piece) : Option Bytes :=
  pieces.foldlM (acceptPiece params) srcFormat

def State.pending (state : State) : Pending := ⟨state.newlineBuf, state.keywordBuf⟩

/-- The variable `len` holds the length of the longest keyword when the pieces say so. -/
structure Tracks (ready : Bool) (state : State) : Prop where
  small : ∀ len, state.len = some len → len ≤ keywordMaxLen
  same : state.newlineBuf = [] → (state.len = some keywordMaxLen ↔ ready = true)
  newline : state.newlineBuf ≠ [] → state.len ≠ some keywordMaxLen

section Step

variable {params : Params} {state : State} {ready : Bool} {c : UInt8}

/-- The byte ends these pieces, and the state is that of what is pending then. -/
def Steps (params : Params) (ready : Bool) (state : State) (c : UInt8) (ended : List Piece × Pending) :
    Prop :=
  ∃ len, translateByte params state c =
      (match accept params state.srcFormat ended.1 with
      | none => .error ⟨.ioInconsistentEol, params.src⟩
      | some srcFormat =>
          .ok (images params ended.1, ⟨ended.2.newline, ended.2.run, len, srcFormat⟩)) ∧
    ∀ srcFormat, Tracks (ended.1.foldl Piece.ready ready) ⟨ended.2.newline, ended.2.run, len, srcFormat⟩

variable {newlineBuf keywordBuf srcFormat : Bytes} {len : Option Nat}

/-- Outside of newlines, only the variable matters. -/
theorem Tracks.keep {other format : Bytes} (tracks : Tracks ready ⟨[], keywordBuf, len, srcFormat⟩) :
    Tracks ready ⟨[], other, len, format⟩ :=
  ⟨tracks.small, tracks.same, tracks.newline⟩

theorem tracks_measured {measured : Nat} (small : measured ≤ keywordMaxLen) :
    Tracks (decide (measured = keywordMaxLen)) ⟨[], keywordBuf, some measured, srcFormat⟩ := by
  refine ⟨?_, fun _ => by simp, fun none => absurd rfl none⟩
  rintro _ ⟨⟩
  exact small

/-- Around a newline, less than the longest keyword was measured. -/
theorem tracks_less (less : ∀ measured, len = some measured → measured < keywordMaxLen)
    (quiet : newlineBuf = [] → ready = false) : Tracks ready ⟨newlineBuf, keywordBuf, len, srcFormat⟩ := by
  have other : len ≠ some keywordMaxLen := fun same => lt_irrefl _ (less _ same)
  refine ⟨fun measured same => (less measured same).le, fun none => ?_, fun _ => other⟩
  rw [quiet none]
  exact ⟨fun same => absurd same other, fun impossible => nomatch impossible⟩

theorem Tracks.less {first : UInt8} (tracks : Tracks ready ⟨[first], keywordBuf, len, srcFormat⟩) :
    ∀ measured, len = some measured → measured < keywordMaxLen := by
  intro measured same
  have small := tracks.small measured same
  have other := tracks.newline (by simp)
  rcases Nat.lt_or_eq_of_le small with less | equal
  · exact less
  · rw [equal] at same
    exact absurd same other

theorem steps_dollar (valid : (Pending.mk [] keywordBuf).Valid params)
    (tracks : Tracks ready ⟨[], keywordBuf, len, srcFormat⟩)
    (fit : AllFit ready (scanByte params ⟨[], keywordBuf⟩ 36).1) :
    Steps params ready ⟨[], keywordBuf, len, srcFormat⟩ 36 (scanByte params ⟨[], keywordBuf⟩ 36) := by
  rw [scanByte, if_pos rfl] at fit ⊢
  by_cases inactive : params.keywords = none
  · rw [if_pos inactive]
    cases valid with
    | clean =>
        have ready36 : Piece.ready ready (.byte 36) = ready := by simp [Piece.ready, IsNewline]
        refine ⟨len, ?_, fun _ => ?_⟩
        · simp [translateByte, translateDollar, inactive, accept, acceptPiece, newlineOf, images,
            Piece.image]
        · show Tracks (Piece.ready ready (.byte 36)) _
          rw [ready36]
          exact tracks.keep
    | run active => exact absurd inactive active
  · rw [if_neg inactive] at fit ⊢
    cases valid with
    | clean =>
        refine ⟨len, ?_, fun _ => tracks.keep⟩
        simp [translateByte, translateDollar, inactive, accept, newlineOf, images]
    | @run bytes active plain short =>
        rw [if_neg (by simp)] at fit ⊢
        cases found : translateKeyword (36 :: bytes ++ [36]) params.expand params.keywords with
        | some image =>
            rw [found] at fit
            have room : image.length ≤ keywordMaxLen := fit.1
            refine ⟨some image.length, ?_, fun _ => tracks_measured room⟩
            rw [translateByte, if_pos rfl, translateDollar, if_neg (by simp), if_neg inactive,
              if_neg (by simp)]
            simp only [found, if_neg (Nat.not_lt.mpr room)]
            simp [accept, acceptPiece, images, Piece.image]
        | none =>
            refine ⟨some (bytes.length + 2), ?_, fun _ => ?_⟩
            · rw [translateByte, if_pos rfl, translateDollar, if_neg (by simp), if_neg inactive,
                if_neg (by simp)]
              simp only [found]
              simp [accept, acceptPiece, images, Piece.image]
            · exact tracks_measured (show bytes.length + 2 ≤ keywordMaxLen from short)

theorem translateNewline_accept (params : Params) (srcFormat token : Bytes) :
    translateNewline params srcFormat token =
      match acceptPiece params srcFormat (.newline token) with
      | none => .error ⟨.ioInconsistentEol, params.src⟩
      | some format => .ok (params.eolStr.getD [], format) := by
  rw [translateNewline, acceptPiece]
  by_cases first : srcFormat = []
  · rw [if_pos first, if_pos first]
  · rw [if_neg first, if_neg first]
    by_cases other : params.repair = false ∧ srcFormat ≠ token
    · rw [if_pos other, if_pos other]
    · rw [if_neg other, if_neg other]

theorem flushNewline_accept (params : Params) (state : State) (token kept : Bytes) :
    flushNewline params state token kept =
      match acceptPiece params state.srcFormat (.newline token) with
      | none => .error ⟨.ioInconsistentEol, params.src⟩
      | some format => .ok (params.eolStr.getD [], ⟨kept, state.keywordBuf, state.len, format⟩) := by
  rw [flushNewline, translateNewline_accept]
  cases acceptPiece params state.srcFormat (.newline token) <;> rfl

theorem accept_newline (params : Params) (srcFormat token : Bytes) :
    accept params srcFormat [.newline token] = acceptPiece params srcFormat (.newline token) := by
  rw [accept, List.foldlM_cons]
  cases acceptPiece params srcFormat (.newline token) <;> rfl

theorem steps_newline (isNewline : IsNewline c) (valid : (Pending.mk newlineBuf keywordBuf).Valid params) :
    Steps params ready ⟨newlineBuf, keywordBuf, len, srcFormat⟩ c
      (scanByte params ⟨newlineBuf, keywordBuf⟩ c) := by
  have notDollar : c ≠ 36 := by
    rintro rfl
    exact absurd isNewline (by decide)
  have lost : Piece.ready ready (.byte c) = false := by simp [Piece.ready, isNewline]
  have byte : translateByte params ⟨newlineBuf, keywordBuf, len, srcFormat⟩ c =
      translateNewlineByte params ⟨newlineBuf, keywordBuf, len, srcFormat⟩ c := by
    rw [translateByte, if_neg notDollar, if_pos (show c = 10 ∨ c = 13 from isNewline)]
  have short : keywordBuf.length < keywordMaxLen := by
    cases valid with
    | clean => decide
    | newline => decide
    | run active plain short => exact short
  have measured : ∀ measured, some keywordBuf.length = some measured → measured < keywordMaxLen := by
    rintro _ ⟨⟩
    exact short
  refine ⟨some keywordBuf.length, ?_⟩
  rw [byte, translateNewlineByte, scanByte, if_neg notDollar,
    if_pos (show c = 10 ∨ c = 13 from isNewline)]
  by_cases kept : params.eolStr = none
  · rw [if_pos kept, if_pos kept]
    refine ⟨?_, fun _ => tracks_less measured fun _ => ?_⟩
    · cases valid with
      | clean => simp [runOf, accept, acceptPiece, images, Piece.image]
      | newline _ translated => exact absurd kept translated
      | run => simp [runOf, accept, acceptPiece, images, Piece.image]
    · rw [List.foldl_append]
      simp [Piece.ready, isNewline]
  · rw [if_neg kept, if_neg kept]
    cases valid with
    | clean => exact ⟨rfl, fun _ => tracks_less measured (by simp)⟩
    | run =>
        refine ⟨?_, fun _ => tracks_less measured (by simp)⟩
        simp [runOf, accept, acceptPiece, images, Piece.image]
    | @newline first isFirst =>
        by_cases pair : first = 13 ∧ c = 10
        · obtain ⟨rfl, rfl⟩ := pair
          rw [if_neg (by simp), if_neg (by simp), if_neg (by decide), if_pos (by simp),
            flushNewline_accept]
          refine ⟨?_, fun _ => tracks_less measured fun _ => rfl⟩
          rw [accept_newline]
          show (match acceptPiece params srcFormat (.newline [13, 10]) with
            | none => _
            | some format => _) = _
          cases acceptPiece params srcFormat (.newline [13, 10]) <;> simp [images, Piece.image]
        · have alone : first = c ∨ first = 10 ∧ c = 13 := by
            rcases isFirst with rfl | rfl
            · rcases isNewline with rfl | rfl
              · exact Or.inl rfl
              · exact Or.inr ⟨rfl, rfl⟩
            · rcases isNewline with rfl | rfl
              · exact absurd ⟨rfl, rfl⟩ pair
              · exact Or.inl rfl
          have single : [first] ≠ [] := by simp
          have other : ¬ ([first] = [13] ∧ c = 10) := by simpa using pair
          have same : [first].head? = some c ∨ ([first].head? = some 10 ∧ c = 13) := by simpa using alone
          rw [if_neg single, if_neg single, if_neg other, if_pos same, flushNewline_accept]
          refine ⟨?_, fun _ => tracks_less measured (by simp)⟩
          rw [accept_newline]
          show (match acceptPiece params srcFormat (.newline [first]) with
            | none => _
            | some format => _) = _
          cases acceptPiece params srcFormat (.newline [first]) <;> simp [images, Piece.image]

theorem steps_other (notDollar : c ≠ 36) (notNewline : ¬ IsNewline c)
    (valid : (Pending.mk newlineBuf keywordBuf).Valid params)
    (tracks : Tracks ready ⟨newlineBuf, keywordBuf, len, srcFormat⟩)
    (fit : AllFit ready (scanByte params ⟨newlineBuf, keywordBuf⟩ c).1) :
    Steps params ready ⟨newlineBuf, keywordBuf, len, srcFormat⟩ c
      (scanByte params ⟨newlineBuf, keywordBuf⟩ c) := by
  have kept : ∀ ready, Piece.ready ready (.byte c) = ready := by simp [Piece.ready, notNewline]
  have byte : translateByte params ⟨newlineBuf, keywordBuf, len, srcFormat⟩ c =
      translateOther params ⟨newlineBuf, keywordBuf, len, srcFormat⟩ c := by
    rw [translateByte, if_neg notDollar, if_neg (show ¬ (c = 10 ∨ c = 13) from notNewline)]
  refine ⟨len, ?_⟩
  rw [byte, translateOther]
  rw [scanByte, if_neg notDollar, if_neg (show ¬ (c = 10 ∨ c = 13) from notNewline)] at fit ⊢
  cases valid with
  | clean =>
      refine ⟨by simp [newlineOf, accept, acceptPiece, images, Piece.image], fun _ => ?_⟩
      show Tracks (Piece.ready ready (.byte c)) _
      rw [kept]
      exact tracks.keep
  | @newline first isFirst =>
      refine ⟨?_, fun _ => tracks_less tracks.less fun _ => ?_⟩
      · rw [if_neg (by simp), if_pos (by simp), if_pos rfl, flushNewline_accept]
        have both : accept params srcFormat [.newline [first], .byte c] =
            acceptPiece params srcFormat (.newline [first]) := by
          rw [accept, List.foldlM_cons]
          cases acceptPiece params srcFormat (.newline [first]) <;> rfl
        show _ = match accept params srcFormat [.newline [first], .byte c] with
          | none => _
          | some format => _
        rw [both]
        cases acceptPiece params srcFormat (.newline [first]) <;> simp [newlineOf, images, Piece.image]
      · show Piece.ready false (.byte c) = false
        exact kept false
  | @run bytes active plain short =>
      have open' : 36 :: bytes ≠ [] := by simp
      rw [if_pos open']
      rw [if_neg open'] at fit ⊢
      by_cases full : keywordMaxLen ≤ (36 :: bytes).length + 1
      · rw [if_pos full] at fit ⊢
        have isReady : ready = true := fit.1
        have isLen : len = some keywordMaxLen := (tracks.same rfl).mpr isReady
        have exactly : (36 :: bytes ++ [c]).length = keywordMaxLen := by
          rw [List.length_append, List.length_singleton]
          rw [List.length_cons] at full ⊢
          omega
        refine ⟨?_, fun _ => tracks.keep⟩
        rw [if_pos exactly.ge, isLen]
        simp only [lt_irrefl, if_false]
        rw [← exactly, List.take_length]
        simp [accept, acceptPiece, images, Piece.image]
      · have room : ¬ keywordMaxLen ≤ (36 :: bytes ++ [c]).length := by
          rw [List.length_append, List.length_singleton]
          exact full
        rw [if_neg full, if_neg room]
        exact ⟨rfl, fun _ => tracks.keep⟩

/-- Where nothing is lost, a byte is handled as the pieces say. -/
theorem translateByte_steps (valid : state.pending.Valid params) (tracks : Tracks ready state)
    (kept : ¬ (c = 36 ∧ state.newlineBuf ≠ []))
    (fit : AllFit ready (scanByte params state.pending c).1) :
    Steps params ready state c (scanByte params state.pending c) := by
  obtain ⟨newlineBuf, keywordBuf, len, srcFormat⟩ := state
  by_cases dollar : c = 36
  · subst dollar
    have clean : newlineBuf = [] := by simpa using kept
    subst clean
    exact steps_dollar valid tracks fit
  · by_cases isNewline : IsNewline c
    · exact steps_newline isNewline valid
    · exact steps_other dollar isNewline valid tracks fit

end Step

end Subversion.Wc.Translate
