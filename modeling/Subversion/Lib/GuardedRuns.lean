/-
This file states the rule for runs of a machine of which every step meets a condition.
-/

import Mathlib.Tactic

namespace GuardedRuns

variable {S C : Type}

/-- Every step of the run, with the state before it, has the property. -/
def Along (step : S → C → S) (property : S → C → Prop) : S → List C → Prop
  | _, [] => True
  | state, call :: calls => property state call ∧ Along step property (step state call) calls

section Rules

variable {step : S → C → S} {guard property : S → C → Prop}

theorem Along.of_forall {calls : List C} (all : ∀ call ∈ calls, ∀ state, guard state call) :
    ∀ state, Along step guard state calls := by
  induction calls with
  | nil => exact fun _ => trivial
  | cons call calls ih =>
      rw [List.forall_mem_cons] at all
      exact fun state => ⟨all.1 state, ih all.2 (step state call)⟩

theorem Along.and {calls : List C} : ∀ {state}, Along step guard state calls →
    Along step property state calls →
    Along step (fun state call => guard state call ∧ property state call) state calls := by
  induction calls with
  | nil => exact fun _ _ => trivial
  | cons call calls ih =>
      exact fun guarded holds => ⟨⟨guarded.1, holds.1⟩, ih guarded.2 holds.2⟩

/-- What a guarded step gives and keeps, a guarded run does. -/
theorem Along.run (invariant : S → Prop) (gives : ∀ state call, invariant state → guard state call →
    property state call ∧ invariant (step state call)) (calls : List C) :
    ∀ {state}, invariant state → Along step guard state calls →
      Along step property state calls ∧ invariant (calls.foldl step state) := by
  induction calls with
  | nil => exact fun holds _ => ⟨trivial, holds⟩
  | cons call calls ih =>
      intro state holds guarded
      obtain ⟨first, later⟩ := gives state call holds guarded.1
      obtain ⟨along, ends⟩ := ih later guarded.2
      exact ⟨⟨first, along⟩, ends⟩

end Rules

/-- What every step that succeeds keeps, a run that succeeds does. -/
theorem foldlM_keeps {E : Type} {step : S → C → Except E S} (invariant : S → Prop) (calls : List C)
    (keeps : ∀ call ∈ calls, ∀ {state next}, invariant state → step state call = .ok next →
      invariant next) :
    ∀ {state final}, invariant state → calls.foldlM step state = .ok final → invariant final := by
  induction calls with
  | nil =>
      intro state final holds ran
      cases ran
      exact holds
  | cons call calls ih =>
      intro state final holds ran
      rw [List.forall_mem_cons] at keeps
      rw [List.foldlM_cons] at ran
      cases first : step state call with
      | error error => rw [first] at ran; cases ran
      | ok next =>
          rw [first] at ran
          exact ih keeps.2 (keeps.1 holds first) ran

/-- What is said of a state and of the calls that are still to come. -/
theorem foldlM_ends {E : Type} {step : S → C → Except E S} (invariant : List C → S → Prop)
    (keeps : ∀ call calls state next, invariant (call :: calls) state → step state call = .ok next →
      invariant calls next) (calls : List C) :
    ∀ {state final}, invariant calls state → calls.foldlM step state = .ok final → invariant [] final := by
  induction calls with
  | nil =>
      intro state final holds ran
      cases ran
      exact holds
  | cons call calls ih =>
      intro state final holds ran
      rw [List.foldlM_cons] at ran
      cases first : step state call with
      | error error => rw [first] at ran; cases ran
      | ok next =>
          rw [first] at ran
          exact ih (keeps call calls state next holds first) ran

/-- A run in which no step changes the state. -/
theorem foldlM_stays {E : Type} {step : S → C → Except E S} {state : S} (calls : List C)
    (stays : ∀ call ∈ calls, step state call = .ok state) : calls.foldlM step state = .ok state := by
  induction calls with
  | nil => rfl
  | cons call calls ih =>
      rw [List.forall_mem_cons] at stays
      rw [List.foldlM_cons, stays.1]
      exact ih stays.2

/-- A run of steps that can fail succeeds if the checks of every step do, and they look at no state. -/
theorem foldlM_eq_ok_iff {E : Type} {step : S → C → Except E S} {passes : C → Prop} {next : S → C → S}
    (spec : ∀ state call after, step state call = .ok after ↔ passes call ∧ after = next state call)
    (calls : List C) :
    ∀ {state after}, calls.foldlM step state = .ok after ↔
      (∀ call ∈ calls, passes call) ∧ after = calls.foldl next state := by
  induction calls with
  | nil =>
      intro state after
      simp only [List.foldlM_nil, List.foldl_nil, List.not_mem_nil, false_implies, implies_true, true_and]
      exact ⟨fun same => (Except.ok.inj same).symm, fun same => same ▸ rfl⟩
  | cons call calls ih =>
      intro state after
      rw [List.foldlM_cons, List.foldl_cons, List.forall_mem_cons]
      cases first : step state call with
      | error error =>
          constructor
          · intro impossible
            cases impossible
          · rintro ⟨⟨passes, -⟩, -⟩
            rw [(spec state call _).mpr ⟨passes, rfl⟩] at first
            cases first
      | ok reached =>
          obtain ⟨passes, rfl⟩ := (spec state call reached).mp first
          change calls.foldlM step (next state call) = .ok after ↔ _
          rw [ih, and_assoc, iff_true_intro passes, true_and]

end GuardedRuns
