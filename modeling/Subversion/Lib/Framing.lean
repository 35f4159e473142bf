/-
This file drains a growing buffer through a decoder that recognizes one item at a time.
It shows that the way the input is cut into chunks does not matter.
-/

import Mathlib.Data.List.Basic
import Mathlib.Tactic

namespace Framing

variable {α S W E B : Type}

/-- The decoder either waits, stops, or removes one item from the buffer. -/
inductive Verdict (α S W E : Type) where
  | more
  | stop (error : E)
  | item (state : S) (value : W) (rest : List α)

/-- The consumer may report an error together with its new baton. -/
abbrev Consumer (B W E : Type) := B → W → B × Option E

/-- The drain keeps the decoder state, the unread buffer, and the baton of the consumer. -/
structure Drain (α S B : Type) where
  state : S
  buffer : List α
  baton : B

/-- One item is decoded and consumed for each unit of fuel. -/
def drain (look : S → List α → Verdict α S W E) (consume : Consumer B W E) :
    Nat → Drain α S B → Drain α S B × Option E
  | 0, current => (current, none)
  | fuel + 1, current =>
      match look current.state current.buffer with
      | .more => (current, none)
      | .stop error => (current, some error)
      | .item state value rest =>
          match consume current.baton value with
          | (baton, some error) => ({ current with baton := baton }, some error)
          | (baton, none) => drain look consume fuel ⟨state, rest, baton⟩

/-- The decoder states and buffers that a drain looks at. -/
def rounds (look : S → List α → Verdict α S W E) (consume : Consumer B W E) :
    Nat → Drain α S B → List (S × List α)
  | 0, _ => []
  | fuel + 1, current =>
      (current.state, current.buffer) ::
        match look current.state current.buffer with
        | .more => []
        | .stop _ => []
        | .item state value rest =>
            match consume current.baton value with
            | (_, some _) => []
            | (baton, none) => rounds look consume fuel ⟨state, rest, baton⟩

/-- A chunk is appended to the buffer before the buffer is drained. -/
def feed (look : S → List α → Verdict α S W E) (consume : Consumer B W E)
    (current : Drain α S B) (chunk : List α) : Drain α S B × Option E :=
  drain look consume (current.buffer.length + chunk.length + 1)
    { current with buffer := current.buffer ++ chunk }

/-- The first error ends the sequence of writes. -/
def feedAll (look : S → List α → Verdict α S W E) (consume : Consumer B W E) :
    Drain α S B → List (List α) → Drain α S B × Option E
  | current, [] => (current, none)
  | current, chunk :: chunks =>
      match feed look consume current chunk with
      | (next, some error) => (next, some error)
      | (next, none) => feedAll look consume next chunks

/-- The consumer receives the items in order until it reports an error. -/
def consumeAll (consume : Consumer B W E) : B → List W → B × Option E
  | baton, [] => (baton, none)
  | baton, value :: values =>
      match consume baton value with
      | (next, some error) => (next, some error)
      | (next, none) => consumeAll consume next values

/-- The decoder waits, so the buffer only grows. -/
theorem feed_more {look : S → List α → Verdict α S W E} (consume : Consumer B W E) {state : S}
    {buffer chunk : List α} (baton : B) (waits : look state (buffer ++ chunk) = .more) :
    feed look consume ⟨state, buffer, baton⟩ chunk = (⟨state, buffer ++ chunk, baton⟩, none) := by
  simp [feed, drain, waits]

/-- The chunk completes one item, and nothing is left behind it. -/
theorem feed_item {look : S → List α → Verdict α S W E} (consume : Consumer B W E)
    {state next : S} {buffer chunk : List α} {value : W} {baton after : B}
    (decoded : look state (buffer ++ chunk) = .item next value [])
    (waits : look next [] = .more) (nonempty : buffer ++ chunk ≠ [])
    (consumed : consume baton value = (after, none)) :
    feed look consume ⟨state, buffer, baton⟩ chunk = (⟨next, [], after⟩, none) := by
  have positive : 0 < (buffer ++ chunk).length := List.length_pos_iff.mpr nonempty
  rw [List.length_append] at positive
  obtain ⟨fuel, enough⟩ : ∃ fuel, buffer.length + chunk.length = fuel + 1 :=
    ⟨buffer.length + chunk.length - 1, by omega⟩
  simp [feed, enough, drain, decoded, consumed, waits]

/-- The consumer refuses the item that the chunk completes. -/
theorem feed_item_error {look : S → List α → Verdict α S W E} (consume : Consumer B W E)
    {state next : S} {buffer chunk rest : List α} {value : W} {baton after : B} {error : E}
    (decoded : look state (buffer ++ chunk) = .item next value rest)
    (consumed : consume baton value = (after, some error)) :
    (feed look consume ⟨state, buffer, baton⟩ chunk).2 = some error := by
  simp [feed, drain, decoded, consumed]

/-- The bytes are a sequence of codes. Each proper prefix of a code makes the decoder wait. -/
inductive Frames (look : S → List α → Verdict α S W E) :
    S → List α → List W → S → Prop where
  | nil (state : S) (waits : look state [] = .more) : Frames look state [] [] state
  | cons {state next last : S} {code bytes : List α} {value : W} {values : List W}
      (nonempty : code ≠ [])
      (complete : ∀ rest, look state (code ++ rest) = .item next value rest)
      (partly : ∀ front back, code = front ++ back → back ≠ [] → look state front = .more)
      (tail : Frames look next bytes values last) :
      Frames look state (code ++ bytes) (value :: values) last

/-- The decoder ends by waiting for more input or with an error of its own. -/
inductive Ending (α S E : Type) where
  | waits (state : S) (kept : List α)
  | stops (error : E)

/-- What a decoder makes of the bytes when each verdict depends only on the bytes of its code. -/
inductive Course (look : S → List α → Verdict α S W E) :
    S → List α → List W → Ending α S E → Prop where
  | waits {state : S} {bytes : List α}
      (partly : ∀ front back, bytes = front ++ back → look state front = .more) :
      Course look state bytes [] (.waits state bytes)
  | stops {state : S} {code rest : List α} {error : E} (nonempty : code ≠ [])
      (complete : ∀ more, look state (code ++ more) = .stop error)
      (partly : ∀ front back, code = front ++ back → back ≠ [] → look state front = .more) :
      Course look state (code ++ rest) [] (.stops error)
  | item {state next : S} {code bytes : List α} {value : W} {values : List W}
      {ending : Ending α S E} (nonempty : code ≠ [])
      (complete : ∀ more, look state (code ++ more) = .item next value more)
      (partly : ∀ front back, code = front ++ back → back ≠ [] → look state front = .more)
      (tail : Course look next bytes values ending) :
      Course look state (code ++ bytes) (value :: values) ending

/-- Framed bytes are a course that ends with an empty buffer. -/
theorem Frames.course {look : S → List α → Verdict α S W E} {state last : S} {bytes : List α}
    {values : List W} (frames : Frames look state bytes values last) :
    Course look state bytes values (.waits last []) := by
  induction frames with
  | nil state waits =>
      apply Course.waits
      intro front back split
      rw [(List.append_eq_nil_iff.mp split.symm).1, waits]
  | cons nonempty complete partly tail ih => exact Course.item nonempty complete partly ih

/-- The consumer has received the items, or its error or the decoder's has ended the writes. -/
def Settles (consume : Consumer B W E) (baton : B) (values : List W) (ending : Ending α S E)
    (result : Drain α S B × Option E) : Prop :=
  match consumeAll consume baton values, ending with
  | (after, some error), _ => result.1.baton = after ∧ result.2 = some error
  | (after, none), .stops error => result.1.baton = after ∧ result.2 = some error
  | (after, none), .waits state kept => result = (⟨state, kept, after⟩, none)

/-- A buffer that is shorter than the next code is a prefix of it. -/
theorem prefix_of_short {code rest front back : List α} (split : code ++ rest = front ++ back)
    (short : front.length < code.length) : ∃ missing, code = front ++ missing ∧ missing ≠ [] := by
  refine ⟨code.drop front.length, ?_, ?_⟩
  · have taken := congrArg (List.take front.length) split
    rw [List.take_append_of_le_length (by omega), List.take_left' rfl] at taken
    conv_lhs => rw [← List.take_append_drop front.length code, taken]
  · intro none
    have := congrArg List.length none
    simp at this
    omega

/-- A buffer that is long enough starts with the next code. -/
theorem code_of_long {code rest front back : List α} (split : code ++ rest = front ++ back)
    (long : code.length ≤ front.length) :
    ∃ extra, front = code ++ extra ∧ rest = extra ++ back := by
  have taken := congrArg (List.take code.length) split
  rw [List.take_left' rfl, List.take_append_of_le_length long] at taken
  have frontCode : front = code ++ front.drop code.length := by
    conv_lhs => rw [← List.take_append_drop code.length front, ← taken]
  refine ⟨front.drop code.length, frontCode, ?_⟩
  rw [frontCode, List.append_assoc] at split
  simpa using List.append_cancel_left split

/-- Draining a prefix of a course leaves a course, or it ends in the consumer's error or in the
decoder's. -/
theorem drain_course {look : S → List α → Verdict α S W E} (consume : Consumer B W E)
    {state : S} {bytes : List α} {values : List W} {ending : Ending α S E}
    (course : Course look state bytes values ending) :
    ∀ (fuel : Nat) (front back : List α) (baton : B), bytes = front ++ back →
      front.length < fuel →
      (∃ next error, drain look consume fuel ⟨state, front, baton⟩ = (next, some error) ∧
        (consumeAll consume baton values = (next.baton, some error) ∨
          consumeAll consume baton values = (next.baton, none) ∧ ending = .stops error)) ∨
      (∃ middle kept after given remaining, values = given ++ remaining ∧
        consumeAll consume baton given = (after, none) ∧
        drain look consume fuel ⟨state, front, baton⟩ = (⟨middle, kept, after⟩, none) ∧
        look middle kept = .more ∧ Course look middle (kept ++ back) remaining ending) := by
  induction course with
  | @waits state bytes partly =>
      intro fuel front back baton split enough
      obtain ⟨fuel, rfl⟩ : ∃ less, fuel = less + 1 := ⟨fuel - 1, by omega⟩
      have waits := partly front back split
      right
      refine ⟨state, front, baton, [], [], rfl, rfl, ?_, waits, ?_⟩
      · simp [drain, waits]
      · rw [← split]
        exact Course.waits partly
  | @stops state code rest error nonempty complete partly =>
      intro fuel front back baton split enough
      obtain ⟨fuel, rfl⟩ : ∃ less, fuel = less + 1 := ⟨fuel - 1, by omega⟩
      rcases Nat.lt_or_ge front.length code.length with short | long
      · obtain ⟨missing, codeFront, unfinished⟩ := prefix_of_short split short
        have waits := partly front missing codeFront unfinished
        right
        refine ⟨state, front, baton, [], [], rfl, rfl, ?_, waits, ?_⟩
        · simp [drain, waits]
        · rw [← split]
          exact Course.stops nonempty complete partly
      · obtain ⟨extra, rfl, -⟩ := code_of_long split long
        left
        exact ⟨⟨state, code ++ extra, baton⟩, error, by simp [drain, complete], Or.inr ⟨rfl, rfl⟩⟩
  | @item state next code bytes value values ending nonempty complete partly tail ih =>
      intro fuel front back baton split enough
      obtain ⟨fuel, rfl⟩ : ∃ less, fuel = less + 1 := ⟨fuel - 1, by omega⟩
      rcases Nat.lt_or_ge front.length code.length with short | long
      · -- the buffer holds only a part of the next code, so the decoder waits
        obtain ⟨missing, codeFront, unfinished⟩ := prefix_of_short split short
        have waits := partly front missing codeFront unfinished
        right
        refine ⟨state, front, baton, [], value :: values, rfl, rfl, ?_, waits, ?_⟩
        · simp [drain, waits]
        · rw [← split]
          exact Course.item nonempty complete partly tail
      · -- the code is complete, so the item goes to the consumer
        obtain ⟨extra, rfl, tailSplit⟩ := code_of_long split long
        have codePositive : 0 < code.length := List.length_pos_iff.mpr nonempty
        cases consumed : consume baton value with
        | mk after failure =>
            cases failure with
            | some error =>
                left
                exact ⟨⟨state, code ++ extra, after⟩, error, by simp [drain, complete, consumed],
                  Or.inl (by simp [consumeAll, consumed])⟩
            | none =>
                have step : drain look consume (fuel + 1) ⟨state, code ++ extra, baton⟩ =
                    drain look consume fuel ⟨next, extra, after⟩ := by
                  simp [drain, complete, consumed]
                rw [List.length_append] at enough
                rw [step]
                rcases ih fuel extra back after tailSplit (by omega) with
                  ⟨ended, error, failed, same⟩ |
                    ⟨middle, kept, final, given, remaining, parts, passed, rest⟩
                · left
                  refine ⟨ended, error, failed, ?_⟩
                  simpa only [consumeAll, consumed] using same
                · right
                  exact ⟨middle, kept, final, value :: given, remaining, by simp [parts],
                    by simp [consumeAll, consumed, passed], rest⟩

theorem consumeAll_append (consume : Consumer B W E) (baton next : B) (first second : List W)
    (passed : consumeAll consume baton first = (next, none)) :
    consumeAll consume baton (first ++ second) = consumeAll consume next second := by
  induction first generalizing baton with
  | nil =>
      simp only [consumeAll, Prod.mk.injEq] at passed
      simp [passed.1]
  | cons value values ih =>
      cases consumed : consume baton value with
      | mk after failure =>
          cases failure with
          | some error => simp [consumeAll, consumed] at passed
          | none =>
              simp only [consumeAll, consumed] at passed
              simp only [List.cons_append, consumeAll, consumed]
              exact ih after passed

/-- Any chunking of the bytes of a course settles it in the same way. -/
theorem feedAll_course {look : S → List α → Verdict α S W E} (consume : Consumer B W E)
    (chunks : List (List α)) :
    ∀ {state : S} {values : List W} {ending : Ending α S E} (buffer : List α) (baton : B),
      Course look state (buffer ++ chunks.flatten) values ending →
      look state buffer = .more →
      Settles consume baton values ending
        (feedAll look consume ⟨state, buffer, baton⟩ chunks) := by
  induction chunks with
  | nil =>
      intro state values ending buffer baton course waits
      rw [List.flatten_nil, List.append_nil] at course
      cases course with
      | waits partly => rfl
      | stops nonempty complete partly => rw [complete] at waits; cases waits
      | item nonempty complete partly tail => rw [complete] at waits; cases waits
  | cons chunk chunks ih =>
      intro state values ending buffer baton course waits
      rw [List.flatten_cons, ← List.append_assoc] at course
      have enough : (buffer ++ chunk).length < buffer.length + chunk.length + 1 := by simp
      rcases drain_course consume course (buffer.length + chunk.length + 1)
          (buffer ++ chunk) chunks.flatten baton rfl enough with
        ⟨ended, error, failed, refused | ⟨passed, rfl⟩⟩ |
          ⟨middle, kept, after, given, remaining, parts, passed, drained, middleWaits, rest⟩
      · simp [Settles, refused, feedAll, feed, failed]
      · simp [Settles, passed, feedAll, feed, failed]
      · have stepped : feedAll look consume ⟨state, buffer, baton⟩ (chunk :: chunks) =
            feedAll look consume ⟨middle, kept, after⟩ chunks := by
          simp only [feedAll, feed, drained]
        have later := ih kept after rest middleWaits
        unfold Settles at later ⊢
        rw [stepped, parts, consumeAll_append consume baton after given remaining passed]
        exact later

/-- Any chunking of framed bytes hands exactly the framed items to the consumer. -/
theorem feedAll_frames {look : S → List α → Verdict α S W E} (consume : Consumer B W E)
    (chunks : List (List α)) {state last : S} {values : List W} (buffer : List α) (baton : B)
    (frames : Frames look state (buffer ++ chunks.flatten) values last)
    (waits : look state buffer = .more) :
    (∃ next error, feedAll look consume ⟨state, buffer, baton⟩ chunks = (next, some error) ∧
      consumeAll consume baton values = (next.baton, some error)) ∨
    (∃ final, consumeAll consume baton values = (final, none) ∧
      feedAll look consume ⟨state, buffer, baton⟩ chunks = (⟨last, [], final⟩, none)) := by
  have settles := feedAll_course consume chunks buffer baton frames.course waits
  unfold Settles at settles
  rcases consumed : consumeAll consume baton values with ⟨final, _ | error⟩
  · rw [consumed] at settles
    exact Or.inr ⟨final, rfl, settles⟩
  · rw [consumed] at settles
    refine Or.inl ⟨_, error, Prod.ext rfl settles.2, ?_⟩
    rw [← settles.1]

/-- An error of the drain is one of the decoder or of the consumer. -/
theorem drain_error {look : S → List α → Verdict α S W E} (consume : Consumer B W E) {known : E → Prop}
    (stops : ∀ state bytes error, look state bytes = .stop error → known error)
    (refuses : ∀ baton value error, (consume baton value).2 = some error → known error) :
    ∀ fuel current error, (drain look consume fuel current).2 = some error → known error := by
  intro fuel
  induction fuel with
  | zero => exact fun _ _ none => nomatch none
  | succ fuel ih =>
      intro current error failed
      rw [drain] at failed
      cases decoded : look current.state current.buffer with
      | more =>
          rw [decoded] at failed
          exact nomatch failed
      | stop reason =>
          rw [decoded] at failed
          cases failed
          exact stops _ _ _ decoded
      | item state value rest =>
          rw [decoded] at failed
          have refused := refuses current.baton value
          rcases consumed : consume current.baton value with ⟨baton, reason⟩
          rw [consumed] at refused
          simp only [consumed] at failed
          cases reason with
          | some reason =>
              cases failed
              exact refused _ rfl
          | none => exact ih ⟨state, rest, baton⟩ error failed

/-- An invariant that every tame round keeps holds in all rounds of a tame drain. -/
theorem rounds_invariant {look : S → List α → Verdict α S W E} (consume : Consumer B W E)
    (invariant : S → Prop) {tame : S → List α → Prop}
    (step : ∀ state buffer next value rest, invariant state → tame state buffer →
      look state buffer = .item next value rest → invariant next)
    (fuel : Nat) (current : Drain α S B) (holds : invariant current.state)
    (allTame : ∀ round ∈ rounds look consume fuel current, tame round.1 round.2) :
    (∀ round ∈ rounds look consume fuel current, invariant round.1) ∧
      invariant (drain look consume fuel current).1.state := by
  induction fuel generalizing current with
  | zero => exact ⟨by simp [rounds], holds⟩
  | succ fuel ih =>
      have first : tame current.state current.buffer := by
        apply allTame (current.state, current.buffer)
        simp [rounds]
      simp only [rounds, drain] at allTame ⊢
      cases looked : look current.state current.buffer with
      | more => exact ⟨by simp [holds], holds⟩
      | stop error => exact ⟨by simp [holds], holds⟩
      | item next value rest =>
          have kept := step _ _ _ _ _ holds first looked
          simp only [looked] at allTame ⊢
          rcases consumed : consume current.baton value with ⟨after, _ | error⟩
          · simp only [consumed] at allTame ⊢
            obtain ⟨later, final⟩ := ih ⟨next, rest, after⟩ kept
              (fun round member => allTame round (List.mem_cons_of_mem _ member))
            refine ⟨?_, final⟩
            intro round member
            rcases List.mem_cons.mp member with rfl | member
            · exact holds
            · exact later round member
          · exact ⟨by simp [holds], holds⟩

/-- A verdict is reached as soon as the bytes of its code are there, and not before. -/
inductive Resolves (look : S → List α → Verdict α S W E) (state : S) :
    List α → Verdict α S W E → Prop where
  | more {bytes : List α}
      (partly : ∀ front back, bytes = front ++ back → look state front = .more) :
      Resolves look state bytes .more
  | stop {code rest : List α} {error : E} (nonempty : code ≠ [])
      (complete : ∀ more, look state (code ++ more) = .stop error)
      (partly : ∀ front back, code = front ++ back → back ≠ [] → look state front = .more) :
      Resolves look state (code ++ rest) (.stop error)
  | item {next : S} {code rest : List α} {value : W} (nonempty : code ≠ [])
      (complete : ∀ more, look state (code ++ more) = .item next value more)
      (partly : ∀ front back, code = front ++ back → back ≠ [] → look state front = .more) :
      Resolves look state (code ++ rest) (.item next value rest)

section Steady

variable {look : S → List α → Verdict α S W E} {consume : Consumer B W E} {steady : S → List α → Prop}
  {invariant : S → Prop} {bad : E}

/-- When every steady round resolves, the rounds of one drain are a course. -/
theorem course_of_rounds (passes : ∀ baton value, (consume baton value).2 = none)
    (resolves : ∀ state buffer, invariant state → steady state buffer →
      ∃ verdict, Resolves look state buffer verdict ∧ verdict ≠ .stop bad ∧
        ∀ next value rest, verdict = .item next value rest → invariant next) (fuel : Nat) :
    ∀ current : Drain α S B, invariant current.state → current.buffer.length < fuel →
      (∀ round ∈ rounds look consume fuel current, steady round.1 round.2) →
      ∃ values ending, Course look current.state current.buffer values ending ∧
        ending ≠ .stops bad := by
  induction fuel with
  | zero => exact fun current _ short => absurd short (Nat.not_lt_zero _)
  | succ fuel ih =>
      rintro ⟨state, buffer, baton⟩ holds short allSteady
      have first : steady state buffer := by
        apply allSteady (state, buffer)
        simp [rounds]
      obtain ⟨verdict, resolved, good, kept⟩ := resolves state buffer holds first
      cases resolved with
      | more partly => exact ⟨[], _, Course.waits partly, by simp⟩
      | stop nonempty complete partly =>
          refine ⟨[], _, Course.stops nonempty complete partly, ?_⟩
          rintro ⟨⟩
          exact good rfl
      | @item next code rest value nonempty complete partly =>
          have passed : consume baton value = ((consume baton value).1, none) :=
            Prod.ext rfl (passes baton value)
          have shorter : rest.length < fuel := by
            have := List.length_pos_iff.mpr nonempty
            simp only [List.length_append] at short
            omega
          obtain ⟨values, ending, course, fine⟩ := ih ⟨next, rest, (consume baton value).1⟩
            (kept next value rest rfl) shorter (by
              intro round member
              apply allSteady round
              simp only [rounds, complete]
              rw [passed]
              exact List.mem_cons_of_mem _ member)
          exact ⟨value :: values, ending, Course.item nonempty complete partly course, fine⟩

/-- When an unsteady round can be made to fail by cutting its buffer, bytes that never fail have
steady rounds only. -/
theorem rounds_of_feeds (passes : ∀ baton value, (consume baton value).2 = none)
    (waits : ∀ state, invariant state → look state [] = .more)
    (resolves : ∀ state buffer, invariant state → steady state buffer →
      ∃ verdict, Resolves look state buffer verdict ∧ verdict ≠ .stop bad ∧
        ∀ next value rest, verdict = .item next value rest → invariant next)
    (breaks : ∀ state buffer, invariant state → ¬ steady state buffer →
      ∃ chunks, chunks.flatten = buffer ∧
        ∀ baton, (feedAll look consume ⟨state, [], baton⟩ chunks).2 = some bad) (fuel : Nat) :
    ∀ current : Drain α S B, invariant current.state →
      (∀ chunks, chunks.flatten = current.buffer →
        (feedAll look consume ⟨current.state, [], current.baton⟩ chunks).2 ≠ some bad) →
      ∀ round ∈ rounds look consume fuel current, steady round.1 round.2 := by
  induction fuel with
  | zero => simp [rounds]
  | succ fuel ih =>
      rintro ⟨state, buffer, baton⟩ holds never round member
      have first : steady state buffer := by
        by_contra unsteady
        obtain ⟨chunks, flat, fails⟩ := breaks state buffer holds unsteady
        exact never chunks flat (fails baton)
      rcases List.mem_cons.mp member with rfl | member
      · exact first
      · obtain ⟨verdict, resolved, -, kept⟩ := resolves state buffer holds first
        cases resolved with
        | more partly => simp [partly buffer [] (List.append_nil buffer).symm] at member
        | stop nonempty complete partly => simp [complete] at member
        | @item next code rest value nonempty complete partly =>
            have passed : consume baton value = ((consume baton value).1, none) :=
              Prod.ext rfl (passes baton value)
            have inNext := kept next value rest rfl
            simp only [complete] at member
            rw [passed] at member
            refine ih ⟨next, rest, (consume baton value).1⟩ inNext ?_ round member
            -- the code is written first, and then the chunks of the rest
            intro chunks flat failed
            apply never (code :: chunks) (by rw [List.flatten_cons, flat])
            have decoded : look state ([] ++ code) = .item next value [] := by
              simpa using complete []
            have fed := feed_item consume decoded (waits next inNext) (by simpa using nonempty)
              passed
            simp only [feedAll, fed]
            exact failed

end Steady

end Framing
