/-
This file shows which dates the search for a dated revision gets right.
-/

import Subversion.Delta.Window

namespace Subversion.Repos

open Delta

/-- The dates of the revisions up to the youngest one, and the time that is read from a date. -/
structure DatedRevisions where
  latest : Nat
  date : Nat → Option Bytes
  timeFromNts : Bytes → Int

def getTime (fs : DatedRevisions) (rev : Nat) : Except SvnError Int :=
  match fs.date rev with
  | none => .error ⟨.fsGeneral, "failed to find tm on revision " ++ toString rev⟩
  | some dateStr => .ok (fs.timeFromNts dateStr)

/-- The loop. If the window gets empty, no revision is set. -/
def searchRevision (fs : DatedRevisions) (tm : Int) (revBot revTop : Nat) :
    Except SvnError (Option Nat) :=
  if revTop < revBot then .ok none
  else
    let revMid := (revTop + revBot) / 2
    match getTime fs revMid with
    | .error error => .error error
    | .ok thisTime =>
        if tm < thisTime then
          if revMid = 0 then .ok (some 0)
          else
            match getTime fs (revMid - 1) with
            | .error error => .error error
            | .ok previousTime =>
                if previousTime ≤ tm then .ok (some (revMid - 1))
                else searchRevision fs tm revBot (revMid - 1)
        else if thisTime < tm then
          if fs.latest < revMid + 1 then .ok (some fs.latest)
          else
            match getTime fs (revMid + 1) with
            | .error error => .error error
            | .ok nextTime =>
                if tm < nextTime then .ok (some (revMid + 1))
                else searchRevision fs tm (revMid + 1) revTop
        else .ok (some revMid)
termination_by revTop + 1 - revBot
decreasing_by all_goals omega

def datedRevision (fs : DatedRevisions) (tm : Int) : Except SvnError (Option Nat) :=
  searchRevision fs tm 0 fs.latest

/-- The youngest revision that is not later, or the first one if all are later. -/
def IsDated (latest : Nat) (time : Nat → Int) (tm : Int) (rev : Nat) : Prop :=
  if tm < time 0 then rev = 0
  else rev ≤ latest ∧ time rev ≤ tm ∧ ∀ later, rev < later → later ≤ latest → tm < time later

/-- Halving comes to the revision behind this one before it comes to this one. -/
def comesToNext (rev revBot revTop : Nat) : Bool :=
  if revTop < revBot then false
  else
    let revMid := (revTop + revBot) / 2
    if revMid = rev + 1 then true
    else if revMid = rev then false
    else if rev < revMid then comesToNext rev revBot (revMid - 1)
    else comesToNext rev (revMid + 1) revTop
termination_by revTop + 1 - revBot
decreasing_by all_goals omega

/-- The time is not between two revisions, or the later one of the two is tried first. -/
def RightlyFound (latest : Nat) (time : Nat → Int) (tm : Int) (revBot revTop : Nat) : Prop :=
  tm < time 0 ∨ time latest ≤ tm ∨ (∃ rev, rev ≤ latest ∧ time rev = tm) ∨
    ∃ rev, rev < latest ∧ time rev < tm ∧ tm < time (rev + 1) ∧ comesToNext rev revBot revTop = true

section Search

variable {fs : DatedRevisions} {time : Nat → Int} {tm : Int} {revBot revTop rev : Nat}

/-- Every revision has a date, and each date is later than the one before. -/
structure Chronological (fs : DatedRevisions) (time : Nat → Int) : Prop where
  dated : ∀ rev, rev ≤ fs.latest → getTime fs rev = .ok (time rev)
  increasing : ∀ rev₁ rev₂, rev₁ < rev₂ → rev₂ ≤ fs.latest → time rev₁ < time rev₂

theorem Chronological.lt_of_time (chronological : Chronological fs time) (rev₁ rev₂ : Nat)
    (inside : rev₁ ≤ fs.latest) (earlier : time rev₁ < time rev₂) : rev₁ < rev₂ := by
  by_contra later
  rcases Nat.lt_or_eq_of_le (Nat.le_of_not_lt later) with less | same
  · have := chronological.increasing rev₂ rev₁ less inside
    omega
  · rw [same] at earlier
    exact Int.lt_irrefl _ earlier

/-- The first revision is the earliest. -/
theorem Chronological.first_le (chronological : Chronological fs time) (rev : Nat)
    (inside : rev ≤ fs.latest) :
    time 0 ≤ time rev := by
  rcases Nat.eq_zero_or_pos rev with rfl | positive
  · exact Int.le_refl _
  · exact Int.le_of_lt (chronological.increasing 0 rev positive inside)

theorem isDated_of_neighbour (chronological : Chronological fs time) (inside : rev ≤ fs.latest)
    (reached : time rev ≤ tm) (before : rev = fs.latest ∨ tm < time (rev + 1)) :
    IsDated fs.latest time tm rev := by
  have first := chronological.first_le rev inside
  rw [IsDated, if_neg (by omega)]
  refine ⟨inside, reached, fun later behind within => ?_⟩
  rcases before with rfl | next
  · omega
  · rcases Nat.lt_or_eq_of_le (show rev + 1 ≤ later from behind) with less | same
    · have := chronological.increasing (rev + 1) later less within
      omega
    · rw [← same]
      exact next

/-- A smaller window changes nothing if the halving goes the same way for the revisions around the
time. -/
theorem rightlyFound_congr {revBot' revTop' : Nat}
    (same : ∀ rev, rev < fs.latest → time rev < tm → tm < time (rev + 1) →
      comesToNext rev revBot' revTop' = comesToNext rev revBot revTop) :
    RightlyFound fs.latest time tm revBot' revTop' ↔ RightlyFound fs.latest time tm revBot revTop := by
  rw [RightlyFound, RightlyFound]
  refine or_congr Iff.rfl (or_congr Iff.rfl (or_congr Iff.rfl (exists_congr fun rev => ?_)))
  constructor
  · rintro ⟨inside, reached, before, comes⟩
    exact ⟨inside, reached, before, by rw [← same rev inside reached before]; exact comes⟩
  · rintro ⟨inside, reached, before, comes⟩
    exact ⟨inside, reached, before, by rw [same rev inside reached before]; exact comes⟩

/-- One round of the loop, with all dates read. -/
theorem searchRevision_step (chronological : Chronological fs time) (tm : Int) {revMid : Nat}
    (window : revBot ≤ revTop) (inside : revTop ≤ fs.latest) (isMid : (revTop + revBot) / 2 = revMid) :
    searchRevision fs tm revBot revTop =
      if tm < time revMid then
        if revMid = 0 then .ok (some 0)
        else if time (revMid - 1) ≤ tm then .ok (some (revMid - 1))
        else searchRevision fs tm revBot (revMid - 1)
      else if time revMid < tm then
        if fs.latest < revMid + 1 then .ok (some fs.latest)
        else if tm < time (revMid + 1) then .ok (some (revMid + 1))
        else searchRevision fs tm (revMid + 1) revTop
      else .ok (some revMid) := by
  have mid := chronological.dated revMid (by omega)
  have previous := chronological.dated (revMid - 1) (by omega)
  rw [searchRevision, if_neg (by omega), isMid]
  dsimp only
  rw [mid]
  dsimp only
  by_cases overshot : tm < time revMid
  · rw [if_pos overshot, if_pos overshot, previous]
  · rw [if_neg overshot, if_neg overshot]
    by_cases undershot : time revMid < tm
    · rw [if_pos undershot, if_pos undershot]
      by_cases atEnd : fs.latest < revMid + 1
      · rw [if_pos atEnd, if_pos atEnd]
      · rw [if_neg atEnd, if_neg atEnd, chronological.dated (revMid + 1) (by omega)]
    · rw [if_neg undershot, if_neg undershot]

/-- In a window around the time, a revision is found, and it is the dated one unless halving comes to
the earlier neighbour of the time first. -/
theorem searchRevision_found (chronological : Chronological fs time) (tm : Int) (width : Nat) :
    ∀ revBot revTop, revTop - revBot = width → revBot ≤ revTop → revTop ≤ fs.latest →
      (revBot = 0 ∨ time revBot ≤ tm) → (revTop = fs.latest ∨ tm < time revTop) →
      ∃ rev, searchRevision fs tm revBot revTop = .ok (some rev) ∧
        (IsDated fs.latest time tm rev ↔ RightlyFound fs.latest time tm revBot revTop) := by
  induction width using Nat.strong_induction_on with
  | _ width ih =>
  intro revBot revTop isWidth window inside below above
  obtain ⟨revMid, isMid⟩ : ∃ revMid, (revTop + revBot) / 2 = revMid := ⟨_, rfl⟩
  have comes (rev : Nat) : comesToNext rev revBot revTop =
      if revMid = rev + 1 then true
      else if revMid = rev then false
      else if rev < revMid then comesToNext rev revBot (revMid - 1)
      else comesToNext rev (revMid + 1) revTop := by
    rw [comesToNext, if_neg (by omega), isMid]
  rw [searchRevision_step chronological tm window inside isMid]
  by_cases overshot : tm < time revMid
  · rw [if_pos overshot]
    by_cases first : revMid = 0
    · rw [first] at overshot
      rw [if_pos first]
      refine ⟨0, rfl, ?_⟩
      rw [IsDated, if_pos overshot, RightlyFound]
      simp [overshot]
    · rw [if_neg first]
      by_cases between : time (revMid - 1) ≤ tm
      · -- The time falls between the middle and the revision before it.
        have next : revMid - 1 + 1 = revMid := by omega
        rw [if_pos between]
        refine ⟨revMid - 1, rfl, iff_of_true ?_ ?_⟩
        · exact isDated_of_neighbour chronological (by omega) between (.inr (by rw [next]; exact overshot))
        · rcases Int.lt_or_eq_of_le between with before | exact
          · refine .inr (.inr (.inr ⟨revMid - 1, by omega, before, by rw [next]; exact overshot, ?_⟩))
            rw [comes, if_pos next.symm]
          · exact .inr (.inr (.inl ⟨revMid - 1, by omega, exact⟩))
      · rw [if_neg between]
        have room : revBot ≤ revMid - 1 := by
          by_contra short
          obtain rfl : revBot = revMid := by omega
          rcases below with zero | reached
          · exact first zero
          · omega
        obtain ⟨rev, found, right⟩ := ih (revMid - 1 - revBot) (by omega) revBot (revMid - 1) rfl room
          (by omega) below (.inr (Int.lt_of_not_ge between))
        refine ⟨rev, found, right.trans (rightlyFound_congr fun other within reached after => ?_)⟩
        have earlier := chronological.lt_of_time other (revMid - 1) (by omega) (by omega)
        rw [comes, if_neg (by omega), if_neg (by omega), if_pos (by omega)]
  · rw [if_neg overshot]
    by_cases undershot : time revMid < tm
    · rw [if_pos undershot]
      by_cases atEnd : fs.latest < revMid + 1
      · obtain rfl : revMid = fs.latest := by omega
        rw [if_pos atEnd]
        refine ⟨fs.latest, rfl, iff_of_true ?_ (.inr (.inl (Int.le_of_lt undershot)))⟩
        exact isDated_of_neighbour chronological (Nat.le_refl _) (Int.le_of_lt undershot) (.inl rfl)
      · rw [if_neg atEnd]
        by_cases between : tm < time (revMid + 1)
        · -- The time falls between the middle and the revision behind it, which is returned.
          rw [if_pos between]
          refine ⟨revMid + 1, rfl, iff_of_false ?_ ?_⟩
          · rw [IsDated]
            split
            · simp
            · rintro ⟨-, reached, -⟩
              omega
          · have alone {rev : Nat} (within : rev ≤ fs.latest) (reached : time rev ≤ tm) : rev ≤ revMid := by
              have := chronological.lt_of_time rev (revMid + 1) within (by omega)
              omega
            rintro (early | late | ⟨rev, within, exact⟩ | ⟨rev, within, reached, after, halved⟩)
            · have := chronological.first_le revMid (by omega)
              omega
            · have := alone (Nat.le_refl _) late
              omega
            · have := chronological.lt_of_time revMid rev (by omega) (by omega)
              have := alone within (Int.le_of_eq exact)
              omega
            · have later := chronological.lt_of_time revMid (rev + 1) (by omega) (by omega)
              have := alone (by omega) (Int.le_of_lt reached)
              obtain rfl : revMid = rev := by omega
              rw [comes, if_neg (by omega), if_pos rfl] at halved
              cases halved
        · rw [if_neg between]
          have room : revMid + 1 ≤ revTop := by
            rcases above with rfl | after
            · omega
            · by_contra short
              obtain rfl : revMid = revTop := by omega
              omega
          obtain ⟨rev, found, right⟩ := ih (revTop - (revMid + 1)) (by omega) (revMid + 1) revTop rfl room
            inside (.inr (Int.le_of_not_gt between)) above
          refine ⟨rev, found, right.trans (rightlyFound_congr fun other within reached after => ?_)⟩
          have later := chronological.lt_of_time (revMid + 1) (other + 1) (by omega) (by omega)
          rw [comes, if_neg (by omega), if_neg (by omega), if_neg (by omega)]
    · have exact : time revMid = tm := by omega
      rw [if_neg undershot]
      refine ⟨revMid, rfl, iff_of_true ?_ (.inr (.inr (.inl ⟨revMid, by omega, exact⟩)))⟩
      apply isDated_of_neighbour chronological (by omega) (Int.le_of_eq exact)
      by_cases atEnd : revMid = fs.latest
      · exact .inl atEnd
      · have := chronological.increasing revMid (revMid + 1) (by omega) (by omega)
        exact .inr (by omega)

/-- A revision is always found. -/
theorem datedRevision_found (chronological : Chronological fs time) (tm : Int) :
    ∃ rev, datedRevision fs tm = .ok (some rev) ∧
      (IsDated fs.latest time tm rev ↔ RightlyFound fs.latest time tm 0 fs.latest) :=
  searchRevision_found chronological tm _ 0 fs.latest rfl (Nat.zero_le _) (Nat.le_refl _) (.inl rfl)
    (.inl rfl)

/-- The search ends at the dated revision, unless the time is between two revisions of which halving
comes to the earlier one first. -/
theorem datedRevision_iff (fs : DatedRevisions) (time : Nat → Int) (tm : Int)
    (chronological : Chronological fs time) :
    (∃ rev, datedRevision fs tm = .ok (some rev) ∧ IsDated fs.latest time tm rev) ↔
      RightlyFound fs.latest time tm 0 fs.latest := by
  obtain ⟨found, ended, right⟩ := datedRevision_found chronological tm
  rw [← right]
  constructor
  · rintro ⟨rev, same, dated⟩
    rw [ended] at same
    rw [Option.some.inj (Except.ok.inj same)]
    exact dated
  · exact fun dated => ⟨found, ended, dated⟩

/-- The text of a time at midnight, with the day of the week and the one of January. -/
def januaryText (wday : List Nat) (day : Nat) : Bytes :=
  (wday ++ [32, 48 + day, 32, 74, 97, 110, 32, 50, 48, 48, 50, 32, 48, 48, 58, 48, 48, 58, 48, 48, 46,
    48, 48, 48, 48, 48, 48, 32, 40, 100, 97, 121, 32, 48, 48, 48 + day, 44, 32, 100, 115, 116, 32, 48,
    44, 32, 103, 109, 116, 95, 111, 102, 102, 32, 48, 48, 48, 48, 48, 48, 41]).map UInt8.ofNat

/-- The first revision is from the first of January, the next one from the second. -/
def twoRevisions : DatedRevisions where
  latest := 1
  date rev := if rev = 0 then some (januaryText [84, 117, 101] 1) else some (januaryText [87, 101, 100] 2)
  timeFromNts text := if text = januaryText [84, 117, 101] 1 then 1009843200000000 else 1009929600000000

def twoTimes (rev : Nat) : Int := if rev = 0 then 1009843200000000 else 1009929600000000

theorem twoRevisions_chronological : Chronological twoRevisions twoTimes := by
  refine ⟨?_, ?_⟩
  · intro rev inside
    have cases : rev = 0 ∨ rev = 1 := by
      have : rev ≤ 1 := inside
      omega
    rcases cases with rfl | rfl <;> decide
  · intro rev₁ rev₂ less inside
    have last : rev₂ ≤ 1 := inside
    obtain rfl : rev₁ = 0 := by omega
    obtain rfl : rev₂ = 1 := by omega
    decide

/-- The time of the second revision. -/
theorem datedRevision_second :
    ∃ rev, datedRevision twoRevisions 1009929600000000 = .ok (some rev) ∧
      IsDated twoRevisions.latest twoTimes 1009929600000000 rev :=
  (datedRevision_iff twoRevisions twoTimes 1009929600000000 twoRevisions_chronological).mpr
    (.inr (.inl (by decide)))

/-- Between both revisions, the later one is returned. -/
theorem datedRevision_between :
    Chronological twoRevisions twoTimes ∧ datedRevision twoRevisions 1009900000000000 = .ok (some 1) ∧
      ¬ IsDated twoRevisions.latest twoTimes 1009900000000000 1 := by
  refine ⟨twoRevisions_chronological, ?_, ?_⟩
  · rw [datedRevision, searchRevision_step twoRevisions_chronological _ (Nat.zero_le _) (Nat.le_refl _) rfl]
    rfl
  · rw [IsDated, if_neg (by decide)]
    rintro ⟨-, reached, -⟩
    exact absurd reached (by decide)

end Search

end Subversion.Repos
