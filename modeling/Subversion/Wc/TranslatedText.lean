/-
This file shows when a translation keeps all bytes outside of newlines and keywords, and what it does
to newlines alone.
-/

import Subversion.Wc.TranslatedPieces

namespace Subversion.Wc.Translate

open Delta

section Pieces

variable {params : Params} {pending : Pending} {c : UInt8}

theorem accept_append (params : Params) (srcFormat : Bytes) (first second : List Piece) :
    accept params srcFormat (first ++ second) =
      (accept params srcFormat first).bind fun format => accept params format second := by
  rw [accept, List.foldlM_append]
  rfl

theorem allFit_append (first second : List Piece) :
    ∀ ready, AllFit ready (first ++ second) ↔
      AllFit ready first ∧ AllFit (first.foldl Piece.ready ready) second := by
  induction first with
  | nil =>
      intro ready
      exact (iff_of_eq (true_and _)).symm
  | cons piece first ih =>
      intro ready
      rw [List.cons_append, AllFit, AllFit, List.foldl_cons, ih, and_assoc]

/-- A newline that is followed by a dollar sign is lost, whatever comes then. -/
theorem lost_dollar (first : UInt8) (rest : Bytes) :
    ¬ NoneLost (scanFrom params ⟨[first], []⟩ (36 :: rest)) := by
  intro kept
  rw [scanFrom, scanByte, if_pos rfl] at kept
  by_cases inactive : params.keywords = none
  · rw [if_pos inactive] at kept
    exact (List.isChain_cons_cons.mp kept).1 ⟨rfl, rfl⟩
  · rw [if_neg inactive, if_pos rfl] at kept
    have valid : Pending.Valid params ⟨[], [36]⟩ := .run inactive (by simp) (by decide)
    obtain ⟨piece, pieces, parts, head⟩ := scan_head valid (show [] ++ [36] ++ rest = 36 :: rest from rfl)
    rw [parts] at kept
    exact (List.isChain_cons_cons.mp kept).1 ⟨rfl, head⟩

theorem lost_pending (valid : pending.Valid params) (open' : pending.newline ≠ []) (rest : Bytes) :
    ¬ NoneLost (scanFrom params pending (36 :: rest)) := by
  cases valid with
  | clean => exact absurd rfl open'
  | run => exact absurd rfl open'
  | newline => exact lost_dollar _ rest

theorem noneLost_cons {piece : Piece} {pieces : List Piece}
    (kept : piece.lone = true → ∀ second ∈ pieces.head?, second.source.head? ≠ some 36) :
    NoneLost (piece :: pieces) ↔ NoneLost pieces := by
  have quiet : ∀ second ∈ pieces.head?, ¬ (piece.lone = true ∧ second.source.head? = some 36) :=
    fun second first lost => kept lost.1 second first lost.2
  rw [NoneLost, List.isChain_cons]
  exact ⟨And.right, fun chain => ⟨quiet, chain⟩⟩

theorem noneLost_quiet (ended pieces : List Piece) (quiet : ∀ piece ∈ ended, piece.lone = false) :
    NoneLost (ended ++ pieces) ↔ NoneLost pieces := by
  induction ended with
  | nil => rfl
  | cons piece ended ih =>
      have here := quiet piece List.mem_cons_self
      rw [List.cons_append, noneLost_cons (by simp [here])]
      exact ih fun other member => quiet other (List.mem_cons_of_mem piece member)

/-- No dollar sign that was kept stands behind the newlines that end here. -/
theorem noneLost_step (valid : pending.Valid params) (kept : ¬ (c = 36 ∧ pending.newline ≠ []))
    (rest : Bytes) :
    NoneLost (scanFrom params pending (c :: rest)) ↔
      NoneLost (scanFrom params (scanByte params pending c).2 rest) := by
  rw [scanFrom]
  cases valid with
  | clean =>
      refine noneLost_quiet _ _ ?_
      rw [scanByte]
      repeat' split
      all_goals simp_all [newlineOf, runOf, Piece.lone]
  | run =>
      refine noneLost_quiet _ _ ?_
      rw [scanByte]
      repeat' split
      all_goals simp_all [runOf, Piece.lone]
  | @newline first isFirst translated =>
      have notDollar : c ≠ 36 := by simpa using kept
      rw [scanByte, if_neg notDollar]
      by_cases ends : c = 10 ∨ c = 13
      · have opened : Pending.Valid params ⟨[c], []⟩ := .newline ends translated
        rw [if_pos ends, if_neg translated, if_neg (by simp)]
        split
        · exact noneLost_quiet _ _ (by simp [Piece.lone])
        · obtain ⟨piece, pieces, parts, head⟩ :=
            scan_head opened (show [c] ++ [] ++ rest = c :: rest from rfl)
          refine noneLost_cons fun _ second same => ?_
          have first : second ∈ (scanFrom params ⟨[c], []⟩ rest).head? := same
          rw [parts, List.head?_cons, Option.mem_some_iff] at first
          rw [← first, head]
          simpa using notDollar
      · rw [if_neg ends, if_pos rfl]
        show NoneLost (.newline [first] :: ([.byte c] ++ scanFrom params ⟨[], []⟩ rest)) ↔ _
        refine (noneLost_cons fun _ second same => ?_).trans
          (noneLost_quiet [.byte c] _ (by simp [Piece.lone]))
        rw [List.cons_append, List.head?_cons, Option.mem_some_iff] at same
        rw [← same]
        simpa [Piece.source] using notDollar

end Pieces

section Copy

variable {params : Params}

/-- The copy holds the images of all pieces, unless the newlines are refused. -/
def copyOf (params : Params) (srcFormat : Bytes) (pieces : List Piece) : Except SvnError Bytes :=
  match accept params srcFormat pieces with
  | none => .error ⟨.ioInconsistentEol, params.src⟩
  | some _ => .ok (images params pieces)

theorem copyOf_refused {srcFormat : Bytes} {first : List Piece} (second : List Piece)
    (refused : accept params srcFormat first = none) :
    copyOf params srcFormat (first ++ second) = .error ⟨.ioInconsistentEol, params.src⟩ := by
  rw [copyOf, accept_append, refused]
  rfl

theorem copyOf_accepted {srcFormat : Bytes} {pieces : List Piece}
    (accepted : accept params srcFormat pieces ≠ none) :
    copyOf params srcFormat pieces = .ok (images params pieces) := by
  rw [copyOf]
  cases format : accept params srcFormat pieces with
  | none => exact absurd format accepted
  | some _ => rfl

theorem copyOf_append {srcFormat format : Bytes} {first : List Piece} (second : List Piece)
    (accepted : accept params srcFormat first = some format) :
    copyOf params srcFormat (first ++ second) =
      (copyOf params format second).map (images params first ++ ·) := by
  rw [copyOf, copyOf, accept_append, accepted, Option.bind_some, images_append]
  cases accept params format second <;> rfl

theorem translateFrom_error {state : State} {c : UInt8} {error : SvnError} (rest : Bytes)
    (failed : translateByte params state c = .error error) :
    translateFrom params state (c :: rest) = .error error := by
  rw [translateFrom, failed]

theorem translateFrom_ok {state next : State} {c : UInt8} {written : Bytes} (rest : Bytes)
    (step : translateByte params state c = .ok (written, next)) :
    translateFrom params state (c :: rest) = (translateFrom params next rest).map (written ++ ·) := by
  rw [translateFrom, step]
  dsimp only
  cases translateFrom params next rest <;> rfl

theorem copyOf_newline (params : Params) (srcFormat token : Bytes) :
    copyOf params srcFormat [.newline token] =
      (translateNewline params srcFormat token).map Prod.fst := by
  rw [copyOf, translateNewline_accept, accept_newline]
  cases acceptPiece params srcFormat (.newline token) with
  | none => rfl
  | some format => simp [images, Piece.image, Except.map]

theorem translateEnd_pieces {state : State} (valid : state.pending.Valid params) :
    translateEnd params state =
      copyOf params state.srcFormat (newlineOf state.newlineBuf ++ runOf state.keywordBuf) := by
  obtain ⟨newlineBuf, keywordBuf, len, srcFormat⟩ := state
  cases valid with
  | clean => rfl
  | run => simp [translateEnd, copyOf, newlineOf, runOf, accept, acceptPiece, images, Piece.image]
  | @newline first =>
      have alone : newlineOf [first] ++ runOf [] = [.newline [first]] := rfl
      rw [translateEnd, if_pos (by simp), alone, copyOf_newline]
      cases translateNewline params srcFormat [first] with
      | error error => rfl
      | ok written => simp [Except.map]

/-- Where nothing is lost, the copy holds the images of all pieces. -/
theorem translateFrom_pieces (rest : Bytes) :
    ∀ (state : State) (ready : Bool), state.pending.Valid params → Tracks ready state →
      NoneLost (scanFrom params state.pending rest) → AllFit ready (scanFrom params state.pending rest) →
      translateFrom params state rest =
        copyOf params state.srcFormat (scanFrom params state.pending rest) := by
  induction rest with
  | nil =>
      intro state ready valid _ _ _
      exact translateEnd_pieces valid
  | cons c rest ih =>
      intro state ready valid tracks kept fit
      have here : ¬ (c = 36 ∧ state.newlineBuf ≠ []) := by
        rintro ⟨rfl, pending⟩
        exact lost_pending valid pending rest kept
      rw [noneLost_step valid here] at kept
      rw [scanFrom, allFit_append] at fit
      obtain ⟨len, step, next⟩ := translateByte_steps valid tracks here fit.1
      rw [scanFrom]
      cases ended : accept params state.srcFormat (scanByte params state.pending c).1 with
      | none =>
          rw [ended] at step
          rw [translateFrom_error rest step, copyOf_refused _ ended]
      | some format =>
          rw [ended] at step
          rw [translateFrom_ok rest step, copyOf_append _ ended]
          exact congrArg _ (ih ⟨_, _, len, format⟩ _ (scanByte_valid valid c) (next format) kept fit.2)

end Copy

section Lost

/-- The number of bytes in front of the first newline. -/
def lead (bytes : Bytes) : Nat := (bytes.takeWhile fun c => ¬ IsNewline c).length

theorem lead_append {first : Bytes} (plain : ∀ c ∈ first, ¬ IsNewline c) (second : Bytes) :
    lead (first ++ second) = first.length + lead second := by
  rw [lead, List.takeWhile_append_of_pos (by simpa using plain), List.length_append]
  rfl

theorem lead_newline {c : UInt8} (isNewline : IsNewline c) (rest : Bytes) : lead (c :: rest) = 0 := by
  rw [lead, List.takeWhile_cons_of_neg (by simpa using isNewline)]
  rfl

theorem lead_plain {c : UInt8} (notNewline : ¬ IsNewline c) (rest : Bytes) :
    lead (c :: rest) = lead rest + 1 := by
  rw [lead, List.takeWhile_cons_of_pos (by simpa using notNewline)]
  rfl

theorem lead_mono (first : Bytes) {second third : Bytes} (fewer : lead second ≤ lead third) :
    lead (first ++ second) ≤ lead (first ++ third) := by
  induction first with
  | nil => exact fewer
  | cons c first ih =>
      rw [List.cons_append, List.cons_append]
      by_cases isNewline : IsNewline c
      · rw [lead_newline isNewline, lead_newline isNewline]
      · rw [lead_plain isNewline, lead_plain isNewline]
        exact Nat.succ_le_succ ih

/-- The newlines that a file can be translated to. -/
def IsEol (eolStr : Bytes) : Prop := eolStr = [10] ∨ eolStr = [13] ∨ eolStr = [13, 10]

theorem lead_eol {eolStr : Bytes} (eol : IsEol eolStr) (rest : Bytes) : lead (eolStr ++ rest) = 0 := by
  rcases eol with rfl | rfl | rfl
  · exact lead_newline (by decide) _
  · exact lead_newline (by decide) _
  · exact lead_newline (by decide) _

theorem dollar_plain : ∀ d ∈ [36], ¬ IsNewline d := by decide +kernel

variable {params : Params} {state next : State} {ready : Bool} {c : UInt8} {written copy : Bytes}

theorem flushNewline_written {token kept : Bytes}
    (step : flushNewline params state token kept = .ok (written, next)) :
    written = params.eolStr.getD [] := by
  rw [flushNewline_accept] at step
  split at step
  · cases step
  · cases step
    rfl

/-- A newline that is pending is written first. -/
theorem translateByte_eol (translated : params.eolStr ≠ none) (open' : state.newlineBuf ≠ [])
    (clean : state.keywordBuf = []) (step : translateByte params state c = .ok (written, next)) :
    ∃ more, written = params.eolStr.getD [] ++ more := by
  rw [translateByte] at step
  by_cases dollar : c = 36
  · rw [if_pos dollar, translateDollar, if_pos open'] at step
    exact ⟨[], by rw [flushNewline_written step, List.append_nil]⟩
  · rw [if_neg dollar] at step
    by_cases ends : c = 10 ∨ c = 13
    · rw [if_pos ends, translateNewlineByte, if_neg translated, if_neg open'] at step
      refine ⟨[], ?_⟩
      rw [List.append_nil]
      split at step
      · exact flushNewline_written step
      · exact flushNewline_written step
    · rw [if_neg ends, translateOther, if_neg (not_not.mpr clean), if_pos open'] at step
      cases flushed : flushNewline params state state.newlineBuf [] with
      | error error =>
          rw [flushed] at step
          cases step
      | ok result =>
          rw [flushed] at step
          cases step
          exact ⟨[c], by rw [flushNewline_written flushed]⟩

theorem translateFrom_inv {rest : Bytes} (done : translateFrom params state (c :: rest) = .ok copy) :
    ∃ written next later, translateByte params state c = .ok (written, next) ∧
      translateFrom params next rest = .ok later ∧ copy = written ++ later := by
  cases step : translateByte params state c with
  | error error =>
      rw [translateFrom_error rest step] at done
      cases done
  | ok result =>
      obtain ⟨written, next⟩ := result
      rw [translateFrom_ok rest step] at done
      cases later : translateFrom params next rest with
      | error error =>
          rw [later] at done
          cases done
      | ok copied =>
          rw [later] at done
          cases done
          exact ⟨written, next, copied, rfl, later, rfl⟩

theorem lead_pending {eolStr : Bytes} (translated : params.eolStr = some eolStr) (eol : IsEol eolStr)
    (open' : state.newlineBuf ≠ []) (clean : state.keywordBuf = []) {rest : Bytes}
    (done : translateFrom params state rest = .ok copy) : lead copy = 0 := by
  cases rest with
  | nil =>
      rw [translateFrom, translateEnd, if_pos open', translateNewline_accept] at done
      cases format : acceptPiece params state.srcFormat (.newline state.newlineBuf) with
      | none =>
          rw [format] at done
          cases done
      | some format' =>
          rw [format] at done
          cases done
          rw [translated]
          exact lead_eol eol _
  | cons c rest =>
      obtain ⟨written, next, later, step, -, rfl⟩ := translateFrom_inv done
      obtain ⟨more, rfl⟩ := translateByte_eol (by simp [translated]) open' clean step
      rw [translated, List.append_assoc]
      exact lead_eol eol _

theorem newlineOf_fits (newline : Bytes) (ready : Bool) : AllFit ready (newlineOf newline) := by
  rw [newlineOf]
  split
  · trivial
  · exact ⟨trivial, trivial⟩

theorem runOf_fits (run : Bytes) (ready : Bool) : AllFit ready (runOf run) := by
  rw [runOf]
  split
  · trivial
  · exact ⟨trivial, trivial⟩

/-- Only a run that ends with a byte of its own can fail to fit. -/
theorem scanByte_fits {pending : Pending} (quiet : pending.run = [] ∨ IsNewline c) (ready : Bool) :
    AllFit ready (scanByte params pending c).1 := by
  have first : ∀ newline, AllFit ready (newlineOf newline ++ [.byte c]) := fun newline =>
    (allFit_append _ _ ready).mpr ⟨newlineOf_fits newline ready, trivial, trivial⟩
  have second : ∀ run, AllFit ready (runOf run ++ [.byte c]) := fun run =>
    (allFit_append _ _ ready).mpr ⟨runOf_fits run ready, trivial, trivial⟩
  rw [scanByte]
  by_cases ends : c = 10 ∨ c = 13
  · rw [if_neg (by rcases ends with rfl | rfl <;> decide), if_pos ends]
    repeat' split
    · exact second _
    · exact runOf_fits _ _
    · exact ⟨trivial, trivial⟩
    · exact ⟨trivial, trivial⟩
  · have none : pending.run = [] := quiet.resolve_right ends
    rw [if_neg ends, if_pos none, if_pos none]
    repeat' split
    · exact first _
    · exact newlineOf_fits _ _
    · exact first _

/-- Where the pieces that end do not fit, some of their bytes are not written. -/
theorem translateByte_misfit (valid : state.pending.Valid params) (tracks : Tracks ready state)
    (misfit : ¬ AllFit ready (scanByte params state.pending c).1)
    (step : translateByte params state c = .ok (written, next)) :
    next.pending = ⟨[], []⟩ ∧ (scanByte params state.pending c).2 = ⟨[], []⟩ ∧
      Tracks ((scanByte params state.pending c).1.foldl Piece.ready ready) next ∧
      ∃ dropped, dropped ≠ [] ∧ (∀ d ∈ dropped, ¬ IsNewline d) ∧
        images params (scanByte params state.pending c).1 = written ++ dropped := by
  obtain ⟨newlineBuf, keywordBuf, len, srcFormat⟩ := state
  have ends : ¬ (c = 10 ∨ c = 13) := fun ends => misfit (scanByte_fits (Or.inr ends) ready)
  cases valid with
  | clean => exact absurd (scanByte_fits (Or.inl rfl) ready) misfit
  | newline => exact absurd (scanByte_fits (Or.inl rfl) ready) misfit
  | @run bytes active plain short =>
      have open' : 36 :: bytes ≠ [] := by simp
      have pending : State.pending ⟨[], 36 :: bytes, len, srcFormat⟩ = ⟨[], 36 :: bytes⟩ := rfl
      rw [pending, scanByte] at misfit ⊢
      rw [translateByte] at step
      by_cases dollar : c = 36
      · rw [if_pos dollar, if_neg active, if_neg open'] at misfit
        rw [if_pos dollar, translateDollar, if_neg (by simp), if_neg active, if_neg (by simp)] at step
        subst dollar
        cases found : translateKeyword (36 :: bytes ++ [36]) params.expand params.keywords with
        | none =>
            rw [found] at misfit
            exact absurd ⟨trivial, trivial⟩ misfit
        | some image =>
            rw [found] at misfit
            simp only [found] at step
            by_cases long : keywordMaxLen < image.length
            · rw [if_pos long] at step
              cases step
            · exact absurd ⟨Nat.not_lt.mp long, trivial⟩ misfit
      · rw [if_neg dollar, if_neg ends, if_neg open'] at misfit ⊢
        rw [if_neg dollar, if_neg ends, translateOther, if_pos open'] at step
        by_cases full : keywordMaxLen ≤ (36 :: bytes).length + 1
        · rw [if_pos full] at misfit ⊢
          have notReady : ready = false := by
            cases ready with
            | false => rfl
            | true => exact absurd ⟨rfl, trivial⟩ misfit
          subst notReady
          have exactly : (36 :: bytes ++ [c]).length = keywordMaxLen := by
            rw [List.length_append, List.length_singleton]
            rw [List.length_cons] at full ⊢
            omega
          rw [if_pos exactly.ge] at step
          cases measured : len with
          | none =>
              rw [measured] at step
              cases step
          | some len =>
              rw [measured] at step tracks
              have less : len < keywordMaxLen := by
                refine lt_of_le_of_ne (tracks.small len rfl) fun same => ?_
                have isReady := (tracks.same rfl).mp (congrArg some same)
                cases isReady
              simp only [if_neg (Nat.not_lt.mpr less.le)] at step
              cases step
              refine ⟨rfl, rfl, tracks.keep, (36 :: bytes ++ [c]).drop len, ?_, ?_, ?_⟩
              · rw [Ne, List.drop_eq_nil_iff, exactly]
                exact Nat.not_le.mpr less
              · intro d member
                rcases List.mem_append.mp (List.mem_of_mem_drop member) with inside | last
                · rcases List.mem_cons.mp inside with rfl | inside
                  · decide
                  · exact (plain d inside).2
                · rw [List.mem_singleton.mp last]
                  exact ends
              · rw [List.take_append_drop]
                simp [images, Piece.image]
        · rw [if_neg full] at misfit
          exact absurd trivial misfit

/-- The images of the pieces that end, when the step follows them. -/
theorem steps_written {ended : List Piece × Pending} (steps : Steps params ready state c ended)
    (step : translateByte params state c = .ok (written, next)) :
    ∃ format, accept params state.srcFormat ended.1 = some format ∧ next.srcFormat = format ∧
      written = images params ended.1 ∧ next.pending = ended.2 ∧
      Tracks (ended.1.foldl Piece.ready ready) next := by
  obtain ⟨len, follows, tracks⟩ := steps
  rw [step] at follows
  cases accepted : accept params state.srcFormat ended.1 with
  | none =>
      rw [accepted] at follows
      cases follows
  | some format =>
      rw [accepted] at follows
      cases follows
      exact ⟨format, rfl, rfl, rfl, rfl, tracks _⟩

theorem valid_newline (valid : state.pending.Valid params) (open' : state.newlineBuf ≠ []) :
    params.eolStr ≠ none ∧ state.keywordBuf = [] := by
  obtain ⟨newlineBuf, keywordBuf, len, srcFormat⟩ := state
  cases valid with
  | clean => exact absurd rfl open'
  | run => exact absurd rfl open'
  | newline isNewline translated => exact ⟨translated, rfl⟩

/-- From the same buffer, no newline is reached later in the copy than in the images. -/
theorem lead_copy (eol : ∀ eolStr ∈ params.eolStr, IsEol eolStr) (rest : Bytes) :
    ∀ (state : State) (ready : Bool) (copy : Bytes), state.pending.Valid params → Tracks ready state →
      state.newlineBuf = [] → translateFrom params state rest = .ok copy →
      lead copy ≤ lead (images params (scanFrom params state.pending rest)) := by
  induction rest with
  | nil =>
      intro state ready copy valid _ _ done
      rw [translateFrom, translateEnd_pieces valid, copyOf] at done
      split at done
      · cases done
      · cases done
        rfl
  | cons c rest ih =>
      intro state ready copy valid tracks clean done
      obtain ⟨written, next, later, step, copied, rfl⟩ := translateFrom_inv done
      have nextValid := scanByte_valid valid c
      rw [scanFrom, images_append]
      by_cases fit : AllFit ready (scanByte params state.pending c).1
      · have steps := translateByte_steps valid tracks (fun lost => lost.2 clean) fit
        obtain ⟨format, -, -, rfl, pending, tracks⟩ := steps_written steps step
        rw [← pending] at nextValid ⊢
        refine lead_mono _ ?_
        by_cases open' : next.newlineBuf = []
        · exact ih next _ later nextValid tracks open' copied
        · obtain ⟨translated, none⟩ := valid_newline nextValid open'
          obtain ⟨eolStr, same⟩ := Option.ne_none_iff_exists'.mp translated
          rw [lead_pending same (eol eolStr same) open' none copied]
          exact Nat.zero_le _
      · obtain ⟨pending, same, tracks, dropped, -, plain, whole⟩ :=
          translateByte_misfit valid tracks fit step
        rw [same, ← pending] at nextValid ⊢
        rw [whole, List.append_assoc]
        refine lead_mono _ ?_
        rw [lead_append plain]
        exact (ih next _ later nextValid tracks (congrArg Pending.newline pending) copied).trans
          (Nat.le_add_left _ _)

/-- What is not written in time is missing from the copy. -/
theorem copy_behind (eol : ∀ eolStr ∈ params.eolStr, IsEol eolStr) {rest dropped : Bytes}
    (valid : state.pending.Valid params) (tracks : Tracks ready state) (clean : state.newlineBuf = [])
    (some' : dropped ≠ []) (plain : ∀ d ∈ dropped, ¬ IsNewline d) :
    translateFrom params state rest ≠
      .ok (dropped ++ images params (scanFrom params state.pending rest)) := by
  intro done
  have fewer := lead_copy eol rest state ready _ valid tracks clean done
  rw [lead_append plain] at fewer
  have more := List.length_pos_iff.mpr some'
  omega

theorem translateKeywordSubst_head {buf keyword image : Bytes} {value : Option Bytes}
    (begins : buf.head? = some 36) (found : translateKeywordSubst buf keyword value = some image) :
    image.head? = some 36 := by
  unfold translateKeywordSubst at found
  repeat' split at found
  all_goals cases found
  · rw [expandedText]
    split <;> rfl
  · exact begins
  · rw [expandedText]
    split <;> rfl
  · rfl

theorem translateEither_head {buf long short image : Bytes} {expand : Bool} {value : Option Bytes}
    (begins : buf.head? = some 36) (found : translateEither buf expand value long short = some image) :
    image.head? = some 36 := by
  cases value with
  | none => cases found
  | some value =>
      rw [translateEither] at found
      rcases Option.or_eq_some_iff.mp found with found | ⟨-, found⟩
      · exact translateKeywordSubst_head begins found
      · exact translateKeywordSubst_head begins found

/-- A keyword still begins with a dollar sign. -/
theorem translateKeyword_head {buf image : Bytes} {expand : Bool} {keywords : Option Keywords}
    (begins : buf.head? = some 36) (found : translateKeyword buf expand keywords = some image) :
    image.head? = some 36 := by
  cases keywords with
  | none => cases found
  | some keywords =>
      rw [translateKeyword] at found
      rcases Option.or_eq_some_iff.mp found with found | ⟨-, found⟩
      · exact translateEither_head begins found
      rcases Option.or_eq_some_iff.mp found with found | ⟨-, found⟩
      · exact translateEither_head begins found
      rcases Option.or_eq_some_iff.mp found with found | ⟨-, found⟩
      · exact translateEither_head begins found
      · exact translateEither_head begins found

/-- What is written for a run begins with its dollar sign. -/
theorem images_run (rest : Bytes) :
    ∀ bytes, (images params (scanFrom params ⟨[], 36 :: bytes⟩ rest)).head? = some 36 := by
  induction rest with
  | nil => exact fun _ => rfl
  | cons c rest ih =>
      intro bytes
      have open' : 36 :: bytes ≠ [] := by simp
      rw [scanFrom, scanByte]
      by_cases dollar : c = 36
      · rw [if_pos dollar]
        by_cases inactive : params.keywords = none
        · rw [if_pos inactive, dollar]
          rfl
        · rw [if_neg inactive, if_neg open']
          cases found : translateKeyword (36 :: bytes ++ [c]) params.expand params.keywords with
          | none => rfl
          | some image =>
              have head := translateKeyword_head (by rfl) found
              rw [images_append, List.head?_append]
              simp [images, Piece.image, head]
      · rw [if_neg dollar]
        by_cases ends : c = 10 ∨ c = 13
        · rw [if_pos ends]
          by_cases kept : params.eolStr = none
          · rw [if_pos kept]
            rfl
          · rw [if_neg kept]
            rfl
        · rw [if_neg ends, if_neg open']
          split
          · rfl
          · exact ih (bytes ++ [c])

theorem translateEither_pair {long short : Bytes} (first : long ≠ []) (second : short ≠ []) (expand : Bool)
    (value : Option Bytes) : translateEither [36, 36] expand value long short = none := by
  have none' : ∀ keyword : Bytes, keyword ≠ [] → ∀ value, translateKeywordSubst [36, 36] keyword value = none := by
    intro keyword nonempty value
    have positive := List.length_pos_iff.mpr nonempty
    unfold translateKeywordSubst
    exact if_pos (show 2 < keyword.length + 2 by omega)
  cases value with
  | none => rfl
  | some value => rw [translateEither, none' long first, none' short second, Option.or_none]

/-- Two dollar signs are no keyword. -/
theorem translateKeyword_pair (expand : Bool) (keywords : Option Keywords) :
    translateKeyword [36, 36] expand keywords = none := by
  cases keywords with
  | none => rfl
  | some keywords =>
      rw [translateKeyword, translateEither_pair (by decide +kernel) (by decide +kernel),
        translateEither_pair (by decide +kernel) (by decide +kernel),
        translateEither_pair (by decide +kernel) (by decide +kernel),
        translateEither_pair (by decide +kernel) (by decide +kernel)]
      rfl

/-- When the dollar sign of a run was lost, the copy is another one. -/
theorem copy_lost (eol : ∀ eolStr ∈ params.eolStr, IsEol eolStr) (translated : params.eolStr ≠ none)
    (active : params.keywords ≠ none) (clean : state.pending = ⟨[], []⟩) (tracks : Tracks ready state)
    (rest : Bytes) :
    translateFrom params state rest ≠ .ok (images params (scanFrom params ⟨[], [36]⟩ rest)) := by
  have opened : Pending.Valid params ⟨[], [36]⟩ := .run active (by simp) (by decide)
  obtain ⟨newlineBuf, keywordBuf, len, srcFormat⟩ := state
  cases clean
  intro done
  have head : (images params (scanFrom params ⟨[], [36]⟩ rest)).head? = some 36 := images_run rest []
  cases rest with
  | nil =>
      rw [translateFrom] at done
      cases done
  | cons c rest =>
      obtain ⟨written, next, later, step, copied, whole⟩ := translateFrom_inv done
      rw [translateByte] at step
      by_cases dollar : c = 36
      · subst dollar
        rw [if_pos rfl, translateDollar, if_neg (by simp), if_neg active] at step
        cases step
        have next : scanByte params ⟨[], [36]⟩ 36 = ([.run [36]], ⟨[], [36]⟩) := by
          rw [scanByte, if_pos rfl, if_neg active, if_neg (by simp), List.singleton_append,
            translateKeyword_pair]
        have behind : [36] ++ images params (scanFrom params ⟨[], [36]⟩ rest) = later := by
          rw [scanFrom, next, images_append] at whole
          exact whole
        have tracked : Tracks ready ⟨[], [36], len, srcFormat⟩ := tracks.keep
        refine copy_behind eol ?_ tracked rfl (List.cons_ne_nil 36 []) dollar_plain
          (copied.trans (congrArg Except.ok behind.symm))
        exact opened
      · rw [whole] at head
        rw [if_neg dollar] at step
        by_cases ends : c = 10 ∨ c = 13
        · rw [if_pos ends, translateNewlineByte, if_neg translated, if_pos rfl] at step
          cases step
          obtain ⟨eolStr, same⟩ := Option.ne_none_iff_exists'.mp translated
          have none := lead_pending same (eol eolStr same) (by simp) rfl copied
          rw [List.nil_append] at head
          obtain ⟨more, rfl⟩ := List.head?_eq_some_iff.mp head
          rw [lead_plain (by decide)] at none
          cases none
        · rw [if_neg ends, translateOther, if_neg (by simp), if_neg (by simp)] at step
          cases step
          exact dollar (Option.some.inj head)

theorem newline_lost (eol : ∀ eolStr ∈ params.eolStr, IsEol eolStr) (valid : state.pending.Valid params)
    (tracks : Tracks ready state) (open' : state.newlineBuf ≠ []) (rest : Bytes) :
    translateFrom params state (36 :: rest) ≠
      .ok (images params (scanFrom params state.pending (36 :: rest))) := by
  intro done
  obtain ⟨newlineBuf, keywordBuf, len, srcFormat⟩ := state
  obtain ⟨written, next, later, step, copied, whole⟩ := translateFrom_inv done
  cases valid with
  | clean => exact absurd rfl open'
  | run => exact absurd rfl open'
  | @newline first isFirst translated =>
      rw [translateByte, if_pos rfl, translateDollar, if_pos open'] at step
      obtain rfl := flushNewline_written step
      rw [flushNewline_accept] at step
      split at step
      · cases step
      cases step
      have cleared : ∀ format, Tracks false ⟨[], [], len, format⟩ := fun _ =>
        tracks_less tracks.less fun _ => rfl
      have front : ∀ pieces, images params (.newline [first] :: pieces) =
          params.eolStr.getD [] ++ images params pieces := fun _ => rfl
      have pending : State.pending ⟨[first], [], len, srcFormat⟩ = ⟨[first], []⟩ := rfl
      rw [pending, scanFrom, scanByte, if_pos rfl] at whole
      by_cases inactive : params.keywords = none
      · rw [if_pos inactive] at whole
        have same := List.append_cancel_left ((front _).symm.trans whole)
        refine copy_behind eol ?_ (cleared _) rfl (List.cons_ne_nil 36 []) dollar_plain
          (copied.trans (congrArg Except.ok same.symm))
        exact .clean
      · rw [if_neg inactive, if_pos rfl] at whole
        have same := List.append_cancel_left ((front _).symm.trans whole)
        exact copy_lost eol translated inactive rfl (cleared _) rest
          (copied.trans (congrArg Except.ok same.symm))

/-- Every byte of the copy is the one that the pieces say, only if nothing is lost. -/
theorem noneLost_of_copy (eol : ∀ eolStr ∈ params.eolStr, IsEol eolStr) (rest : Bytes) :
    ∀ (state : State) (ready : Bool), state.pending.Valid params → Tracks ready state →
      translateFrom params state rest = .ok (images params (scanFrom params state.pending rest)) →
      NoneLost (scanFrom params state.pending rest) ∧ AllFit ready (scanFrom params state.pending rest) := by
  induction rest with
  | nil =>
      intro state ready valid _ _
      refine ⟨?_, (allFit_append _ _ ready).mpr ⟨newlineOf_fits _ _, runOf_fits _ _⟩⟩
      obtain ⟨newlineBuf, keywordBuf, len, srcFormat⟩ := state
      cases valid with
      | clean => exact List.isChain_nil
      | newline => exact List.isChain_singleton _
      | run => exact List.isChain_singleton _
  | cons c rest ih =>
      intro state ready valid tracks done
      by_cases lost : c = 36 ∧ state.newlineBuf ≠ []
      · obtain ⟨rfl, open'⟩ := lost
        exact absurd done (newline_lost eol valid tracks open' rest)
      · obtain ⟨written, next, later, step, copied, whole⟩ := translateFrom_inv done
        have nextValid := scanByte_valid valid c
        rw [noneLost_step valid lost, scanFrom, allFit_append]
        rw [scanFrom, images_append] at whole
        by_cases fit : AllFit ready (scanByte params state.pending c).1
        · obtain ⟨format, -, -, rfl, pending, tracks⟩ :=
            steps_written (translateByte_steps valid tracks lost fit) step
          rw [← pending] at nextValid whole ⊢
          rw [← List.append_cancel_left whole] at copied
          obtain ⟨none, all⟩ := ih next _ nextValid tracks copied
          exact ⟨none, fit, all⟩
        · obtain ⟨pending, same, tracks, dropped, some', plain, parts⟩ :=
            translateByte_misfit valid tracks fit step
          rw [same, ← pending] at nextValid whole
          rw [parts, List.append_assoc] at whole
          rw [← List.append_cancel_left whole] at copied
          exact absurd copied
            (copy_behind eol nextValid tracks (congrArg Pending.newline pending) some' plain)

end Lost

section Whole

variable {params : Params}

theorem translateFrom_plain (inactive : params.keywords = none) (kept : params.eolStr = none)
    (contents : Bytes) : ∀ len, translateFrom params ⟨[], [], len, []⟩ contents = .ok contents := by
  induction contents with
  | nil => exact fun _ => rfl
  | cons c rest ih =>
      intro len
      have step : ∃ len', translateByte params ⟨[], [], len, []⟩ c = .ok ([c], ⟨[], [], len', []⟩) := by
        rw [translateByte, translateDollar, translateNewlineByte, translateOther, if_pos inactive,
          if_pos kept]
        split
        · next dollar => exact ⟨len, by rw [dollar]; rfl⟩
        · split
          · exact ⟨some 0, rfl⟩
          · exact ⟨len, rfl⟩
      obtain ⟨len', step⟩ := step
      rw [translateFrom_ok rest step, ih]
      rfl

/-- A file that is only copied is one without newlines or keywords. -/
theorem copyAndTranslate_start (params : Params) (contents : Bytes) :
    copyAndTranslate params contents = translateFrom params State.start contents := by
  rw [copyAndTranslate]
  split
  · next none => exact (translateFrom_plain none.2 none.1 contents _).symm
  · rfl

theorem tracks_start : Tracks false State.start :=
  tracks_less (fun _ same => by cases same) fun _ => rfl

theorem copyAndTranslate_pieces (contents : Bytes) (kept : NoneLost (piecesOf params contents))
    (fit : AllFit false (piecesOf params contents)) :
    copyAndTranslate params contents = copyOf params [] (piecesOf params contents) := by
  rw [copyAndTranslate_start]
  exact translateFrom_pieces contents State.start false .clean tracks_start kept fit

theorem noneLost_of_copyAndTranslate (eol : ∀ eolStr ∈ params.eolStr, IsEol eolStr) {contents : Bytes}
    (copied : copyAndTranslate params contents = .ok (images params (piecesOf params contents))) :
    NoneLost (piecesOf params contents) ∧ AllFit false (piecesOf params contents) := by
  rw [copyAndTranslate_start] at copied
  exact noneLost_of_copy eol contents State.start false .clean tracks_start copied

/-- All bytes outside of newlines and keywords are kept, when no dollar sign is lost and every run and
every keyword fits. -/
theorem copyAndTranslate_keeps (params : Params) (contents : Bytes)
    (eol : ∀ eolStr ∈ params.eolStr, IsEol eolStr)
    (accepted : accept params [] (piecesOf params contents) ≠ none) :
    sources (piecesOf params contents) = contents ∧
      (copyAndTranslate params contents = .ok (images params (piecesOf params contents)) ↔
        NoneLost (piecesOf params contents) ∧ AllFit false (piecesOf params contents)) := by
  refine ⟨sources_piecesOf params contents, noneLost_of_copyAndTranslate eol, ?_⟩
  rintro ⟨kept, fit⟩
  rw [copyAndTranslate_pieces contents kept fit, copyOf_accepted accepted]

/-- The keyword `Rev` with the value `1`. -/
def revisionOne : Keywords := ⟨some [49], none, none, none⟩

theorem copyAndTranslate_keeps_keyword :
    sources (piecesOf ⟨"iota", some [10], true, some revisionOne, true⟩ [36, 82, 101, 118, 36, 13, 10]) =
        [36, 82, 101, 118, 36, 13, 10] ∧
      (copyAndTranslate ⟨"iota", some [10], true, some revisionOne, true⟩ [36, 82, 101, 118, 36, 13, 10] =
          .ok (images ⟨"iota", some [10], true, some revisionOne, true⟩
            (piecesOf ⟨"iota", some [10], true, some revisionOne, true⟩ [36, 82, 101, 118, 36, 13, 10])) ↔
        NoneLost (piecesOf ⟨"iota", some [10], true, some revisionOne, true⟩
            [36, 82, 101, 118, 36, 13, 10]) ∧
          AllFit false (piecesOf ⟨"iota", some [10], true, some revisionOne, true⟩
            [36, 82, 101, 118, 36, 13, 10])) :=
  copyAndTranslate_keeps ⟨"iota", some [10], true, some revisionOne, true⟩ [36, 82, 101, 118, 36, 13, 10]
    (by
      rintro eolStr same
      exact Or.inl (Option.some.inj same).symm)
    (by decide +kernel)

/-- A dollar sign behind a newline is lost, and so is a long run behind another one. -/
theorem copyAndTranslate_drops :
    (copyAndTranslate ⟨"iota", some [10], false, some revisionOne, true⟩ [10, 36] = .ok [10] ∧
      images ⟨"iota", some [10], false, some revisionOne, true⟩
        (piecesOf ⟨"iota", some [10], false, some revisionOne, true⟩ [10, 36]) = [10, 36]) ∧
    (copyAndTranslate ⟨"iota", none, false, some revisionOne, true⟩ (10 :: 36 :: List.replicate 254 97) =
        .ok [10] ∧
      images ⟨"iota", none, false, some revisionOne, true⟩
          (piecesOf ⟨"iota", none, false, some revisionOne, true⟩ (10 :: 36 :: List.replicate 254 97)) =
        10 :: 36 :: List.replicate 254 97) := by
  decide +kernel

end Whole

section Newlines

variable {params : Params}

/-- The newlines of a file without keywords, and all other bytes. -/
def newlineParts : Bytes → List Piece
  | [] => []
  | 13 :: 10 :: rest => .newline [13, 10] :: newlineParts rest
  | c :: rest => (if IsNewline c then .newline [c] else .byte c) :: newlineParts rest

theorem newlineParts_cons {c : UInt8} {rest : Bytes} (alone : ¬ (c = 13 ∧ rest.head? = some 10)) :
    newlineParts (c :: rest) = (if IsNewline c then .newline [c] else .byte c) :: newlineParts rest := by
  rw [newlineParts]
  rintro more rfl rfl
  exact alone ⟨rfl, rfl⟩

theorem newlineParts_byte {c : UInt8} (notNewline : ¬ IsNewline c) (rest : Bytes) :
    newlineParts (c :: rest) = .byte c :: newlineParts rest := by
  have alone : ¬ (c = 13 ∧ rest.head? = some 10) := fun pair => notNewline (Or.inr pair.1)
  rw [newlineParts_cons alone, if_neg notNewline]

theorem newlineParts_newline {c : UInt8} {rest : Bytes} (isNewline : IsNewline c)
    (alone : ¬ (c = 13 ∧ rest.head? = some 10)) :
    newlineParts (c :: rest) = .newline [c] :: newlineParts rest := by
  rw [newlineParts_cons alone, if_pos isNewline]

/-- A newline that is pending belongs to what follows. -/
theorem scan_newlineParts (inactive : params.keywords = none) (translated : params.eolStr ≠ none)
    (rest : Bytes) :
    scanFrom params ⟨[], []⟩ rest = newlineParts rest ∧
      ∀ c, IsNewline c → scanFrom params ⟨[c], []⟩ rest = newlineParts (c :: rest) := by
  induction rest with
  | nil =>
      refine ⟨rfl, fun c isNewline => ?_⟩
      rw [newlineParts_newline isNewline (by simp)]
      rfl
  | cons d rest ih =>
      have dollar : ¬ IsNewline 36 := by decide
      constructor
      · rw [scanFrom, scanByte]
        by_cases isDollar : d = 36
        · rw [if_pos isDollar, if_pos inactive, isDollar, newlineParts_byte dollar, ih.1]
          rfl
        · rw [if_neg isDollar]
          by_cases ends : d = 10 ∨ d = 13
          · rw [if_pos ends, if_neg translated, if_pos rfl, ih.2 d ends]
            rfl
          · rw [if_neg ends, if_pos rfl, newlineParts_byte ends, ih.1]
            rfl
      · intro c isNewline
        rw [scanFrom, scanByte]
        by_cases isDollar : d = 36
        · subst isDollar
          rw [if_pos rfl, if_pos inactive, newlineParts_newline isNewline (by simp),
            newlineParts_byte dollar, ih.1]
          rfl
        · rw [if_neg isDollar]
          by_cases ends : d = 10 ∨ d = 13
          · rw [if_pos ends, if_neg translated, if_neg (by simp)]
            by_cases pair : c = 13 ∧ d = 10
            · obtain ⟨rfl, rfl⟩ := pair
              rw [if_pos ⟨rfl, rfl⟩, ih.1, newlineParts]
              rfl
            · rw [if_neg (by simpa using pair), ih.2 d ends,
                newlineParts_newline isNewline (by simpa using pair)]
              rfl
          · have alone : ¬ (c = 13 ∧ (d :: rest).head? = some 10) := by
              rintro ⟨-, same⟩
              exact ends (Or.inl (Option.some.inj same))
            rw [if_neg ends, if_pos rfl, newlineParts_newline isNewline alone, newlineParts_byte ends, ih.1]
            rfl

def Piece.token : Piece → Option Bytes
  | .newline token => some token
  | _ => none

/-- All newlines are the same. -/
def OneStyle (pieces : List Piece) : Prop :=
  ∀ first ∈ pieces.filterMap Piece.token, ∀ second ∈ pieces.filterMap Piece.token, first = second

theorem acceptPiece_other {piece : Piece} (other : piece.token = none) (srcFormat : Bytes) :
    acceptPiece params srcFormat piece = some srcFormat := by
  cases piece with
  | newline => cases other
  | byte => rfl
  | run => rfl
  | full => rfl
  | keyword => rfl

theorem accept_cons (srcFormat : Bytes) (piece : Piece) (pieces : List Piece) :
    accept params srcFormat (piece :: pieces) =
      (acceptPiece params srcFormat piece).bind fun format => accept params format pieces := by
  rw [accept, List.foldlM_cons]
  rfl

/-- Once there is a format, every newline is compared with it. -/
theorem accept_format {srcFormat : Bytes} (known : srcFormat ≠ []) (pieces : List Piece) :
    accept params srcFormat pieces ≠ none ↔
      params.repair = true ∨ ∀ token ∈ pieces.filterMap Piece.token, srcFormat = token := by
  induction pieces with
  | nil => simp [accept]
  | cons piece pieces ih =>
      rw [accept_cons]
      cases here : piece.token with
      | none => rw [acceptPiece_other here, Option.bind_some, ih, List.filterMap_cons_none here]
      | some token =>
          rw [List.filterMap_cons_some here, List.forall_mem_cons]
          cases piece with
          | newline =>
              cases here
              rw [acceptPiece, if_neg known]
              by_cases other : params.repair = false ∧ srcFormat ≠ token
              · rw [if_pos other]
                simp [other.1, other.2]
              · rw [if_neg other, Option.bind_some, ih]
                cases repair : params.repair with
                | true => simp
                | false =>
                    have same : srcFormat = token := by simpa [repair] using other
                    simp [same]
          | _ => cases here

/-- A file is refused only when its newlines differ and they are not repaired. -/
theorem accept_oneStyle (pieces : List Piece) (solid : ∀ piece ∈ pieces, piece.source ≠ []) :
    accept params [] pieces ≠ none ↔ params.repair = true ∨ OneStyle pieces := by
  induction pieces with
  | nil => simp [accept, OneStyle]
  | cons piece pieces ih =>
      have rest := ih fun other member => solid other (List.mem_cons_of_mem piece member)
      rw [accept_cons]
      cases here : piece.token with
      | none =>
          rw [acceptPiece_other here, Option.bind_some, rest, OneStyle, OneStyle,
            List.filterMap_cons_none here]
      | some token =>
          cases piece with
          | newline =>
              cases here
              have known : token ≠ [] := solid (.newline token) List.mem_cons_self
              rw [acceptPiece, if_pos rfl, Option.bind_some, accept_format known, OneStyle,
                List.filterMap_cons_some (by rfl)]
              refine or_congr Iff.rfl ⟨fun same first one second two => ?_, fun same other member => ?_⟩
              · have equal : ∀ other ∈ token :: pieces.filterMap Piece.token, token = other := by
                  rintro other (_ | ⟨_, member⟩)
                  · rfl
                  · exact same other member
                exact (equal first one).symm.trans (equal second two)
              · exact same token List.mem_cons_self other (List.mem_cons_of_mem token member)
          | _ => cases here

theorem newlineParts_fits (contents : Bytes) : ∀ ready, AllFit ready (newlineParts contents) := by
  fun_induction newlineParts contents with
  | case1 => exact fun _ => trivial
  | case2 rest ih => exact fun _ => ⟨trivial, ih _⟩
  | case3 c rest _ ih =>
      intro ready
      split
      · exact ⟨trivial, ih _⟩
      · exact ⟨trivial, ih _⟩

/-- Newlines are replaced, and refused when they differ and are not repaired, when no dollar sign is
lost. -/
theorem copyAndTranslate_newlines (src : String) (eolStr : Bytes) (eol : IsEol eolStr) (expand : Bool)
    (contents : Bytes) :
    (copyAndTranslate ⟨src, some eolStr, true, none, expand⟩ contents =
        .ok (images ⟨src, some eolStr, true, none, expand⟩ (newlineParts contents)) ∧
      (OneStyle (newlineParts contents) →
        copyAndTranslate ⟨src, some eolStr, false, none, expand⟩ contents =
          .ok (images ⟨src, some eolStr, false, none, expand⟩ (newlineParts contents))) ∧
      (¬ OneStyle (newlineParts contents) →
        copyAndTranslate ⟨src, some eolStr, false, none, expand⟩ contents =
          .error ⟨.ioInconsistentEol, src⟩)) ↔
      NoneLost (newlineParts contents) := by
  have parts : ∀ repair, piecesOf ⟨src, some eolStr, repair, none, expand⟩ contents =
      newlineParts contents := fun repair =>
    (scan_newlineParts rfl (by simp) contents).1
  have isEol : ∀ repair, ∀ other ∈ (Params.mk src (some eolStr) repair none expand).eolStr,
      IsEol other := by
    rintro repair other same
    rw [← Option.some.inj same]
    exact eol
  have solid : ∀ piece ∈ newlineParts contents, piece.source ≠ [] := by
    rw [← parts true]
    exact scan_nonempty contents _ .clean
  constructor
  · rintro ⟨repaired, -⟩
    rw [← parts true] at repaired ⊢
    exact (noneLost_of_copyAndTranslate (isEol true) repaired).1
  · intro kept
    have copied : ∀ repair, copyAndTranslate ⟨src, some eolStr, repair, none, expand⟩ contents =
        copyOf ⟨src, some eolStr, repair, none, expand⟩ [] (newlineParts contents) := by
      intro repair
      rw [← parts repair] at kept ⊢
      exact copyAndTranslate_pieces contents kept (by rw [parts]; exact newlineParts_fits contents false)
    refine ⟨?_, fun same => ?_, fun other => ?_⟩
    · rw [copied]
      exact copyOf_accepted ((accept_oneStyle _ solid).mpr (Or.inl rfl))
    · rw [copied]
      exact copyOf_accepted ((accept_oneStyle _ solid).mpr (Or.inr same))
    · have refused : accept ⟨src, some eolStr, false, none, expand⟩ [] (newlineParts contents) = none := by
        by_contra accepted
        rcases (accept_oneStyle _ solid).mp accepted with repaired | same
        · cases repaired
        · exact other same
      rw [copied, copyOf, refused]

theorem copyAndTranslate_newlines_pair :
    (copyAndTranslate ⟨"iota", some [10], true, none, true⟩ [97, 13, 10, 36, 13] =
        .ok (images ⟨"iota", some [10], true, none, true⟩ (newlineParts [97, 13, 10, 36, 13])) ∧
      (OneStyle (newlineParts [97, 13, 10, 36, 13]) →
        copyAndTranslate ⟨"iota", some [10], false, none, true⟩ [97, 13, 10, 36, 13] =
          .ok (images ⟨"iota", some [10], false, none, true⟩ (newlineParts [97, 13, 10, 36, 13]))) ∧
      (¬ OneStyle (newlineParts [97, 13, 10, 36, 13]) →
        copyAndTranslate ⟨"iota", some [10], false, none, true⟩ [97, 13, 10, 36, 13] =
          .error ⟨.ioInconsistentEol, "iota"⟩)) ↔
      NoneLost (newlineParts [97, 13, 10, 36, 13]) :=
  copyAndTranslate_newlines "iota" [10] (Or.inl rfl) true [97, 13, 10, 36, 13]

/-- The dollar sign behind the newline is not written. -/
theorem copyAndTranslate_newline_dollar :
    copyAndTranslate ⟨"iota", some [10], true, none, true⟩ [10, 36] = .ok [10] ∧
      images ⟨"iota", some [10], true, none, true⟩ (newlineParts [10, 36]) = [10, 36] := by
  decide

end Newlines

end Subversion.Wc.Translate
