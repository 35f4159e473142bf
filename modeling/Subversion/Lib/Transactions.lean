/-
This file states the rules for programs that change a state or fail and are rolled back.
-/

import Mathlib.Tactic

namespace Transactions

variable {E S A B : Type}

/-- From a state as described before, a successful run ends as described after. -/
def Ensures (before : S → Prop) (program : StateT S (Except E) A) (done : A → S → Prop) : Prop :=
  ∀ state, before state → ∀ value after, program state = .ok (value, after) → done value after

/-- A successful run keeps the property. -/
def Keeps (kept : S → Prop) (program : StateT S (Except E) A) : Prop :=
  Ensures kept program fun _ => kept

/-- The program only reads. -/
def Reads (program : StateT S (Except E) A) : Prop :=
  ∀ state value after, program state = .ok (value, after) → after = state

section Runs

variable {state after : S}

theorem bind_ok {first : StateT S (Except E) A} {next : A → StateT S (Except E) B} {value : B} :
    (first >>= next) state = .ok (value, after) ↔
      ∃ found middle, first state = .ok (found, middle) ∧ next found middle = .ok (value, after) := by
  show StateT.bind first next state = _ ↔ _
  unfold StateT.bind
  cases ran : first state with
  | error error => exact ⟨nofun, fun ⟨_, _, impossible, _⟩ => nomatch impossible⟩
  | ok result =>
      constructor
      · exact fun continued => ⟨result.1, result.2, rfl, continued⟩
      · rintro ⟨found, middle, same, continued⟩
        cases same
        exact continued

/-- What follows a successful program goes on from its end, also when it fails. -/
theorem bind_run {first : StateT S (Except E) A} {next : A → StateT S (Except E) B} {found : A}
    {middle : S} (ran : first state = .ok (found, middle)) :
    (first >>= next) state = next found middle := by
  show StateT.bind first next state = _
  unfold StateT.bind
  rw [ran]
  rfl

/-- What follows a program that fails is not run. -/
theorem bind_error {first : StateT S (Except E) A} {next : A → StateT S (Except E) B} {error : E}
    (failed : first state = .error error) : (first >>= next) state = .error error := by
  show StateT.bind first next state = _
  unfold StateT.bind
  rw [failed]
  rfl

theorem pure_ok {value found : A} :
    (pure value : StateT S (Except E) A) state = .ok (found, after) ↔ found = value ∧ after = state := by
  show Except.ok (value, state) = .ok (found, after) ↔ _
  rw [Except.ok.injEq, Prod.mk.injEq]
  constructor
  · rintro ⟨rfl, rfl⟩
    exact ⟨rfl, rfl⟩
  · rintro ⟨rfl, rfl⟩
    exact ⟨rfl, rfl⟩

theorem get_ok {found : S} :
    (get : StateT S (Except E) S) state = .ok (found, after) ↔ found = state ∧ after = state := by
  show Except.ok (state, state) = .ok (found, after) ↔ _
  rw [Except.ok.injEq, Prod.mk.injEq]
  constructor
  · rintro ⟨rfl, rfl⟩
    exact ⟨rfl, rfl⟩
  · rintro ⟨rfl, rfl⟩
    exact ⟨rfl, rfl⟩

end Runs

section Rules

variable {done : B → S → Prop} {kept : S → Prop}

theorem Ensures.bind {before : S → Prop} {middle : A → S → Prop} {first : StateT S (Except E) A}
    {next : A → StateT S (Except E) B} (ensures : Ensures before first middle)
    (follows : ∀ value, Ensures (middle value) (next value) done) :
    Ensures before (first >>= next) done := by
  intro state holds value after ran
  obtain ⟨found, between, ranFirst, ranNext⟩ := bind_ok.mp ran
  exact follows found between (ensures state holds found between ranFirst) value after ranNext

theorem Keeps.ensures {before : S → Prop} {first : StateT S (Except E) A}
    {next : A → StateT S (Except E) B} (keeps : Keeps before first)
    (follows : ∀ value, Ensures before (next value) done) : Ensures before (first >>= next) done :=
  Ensures.bind keeps follows

theorem Keeps.bind {first : StateT S (Except E) A} {next : A → StateT S (Except E) B}
    (keeps : Keeps kept first) (follows : ∀ value, Keeps kept (next value)) :
    Keeps kept (first >>= next) :=
  Ensures.bind keeps follows

theorem Keeps.and {other : S → Prop} {program : StateT S (Except E) A} (one : Keeps kept program)
    (two : Keeps other program) : Keeps (fun state => kept state ∧ other state) program :=
  fun state holds value after ran =>
    ⟨one state holds.1 value after ran, two state holds.2 value after ran⟩

/-- What a program keeps by itself may be assumed by what it keeps besides. -/
theorem Ensures.also {other : S → Prop} {program : StateT S (Except E) A}
    (one : Ensures (fun state => kept state ∧ other state) program fun _ => kept)
    (two : Keeps other program) : Keeps (fun state => kept state ∧ other state) program :=
  fun state holds value after ran =>
    ⟨one state holds value after ran, two state holds.2 value after ran⟩

theorem keeps_pure (value : A) : Keeps kept (pure value : StateT S (Except E) A) := by
  intro state holds found after ran
  rw [(pure_ok.mp ran).2]
  exact holds

theorem Reads.keeps {program : StateT S (Except E) A} (reads : Reads program) : Keeps kept program := by
  intro state holds value after ran
  rw [reads state value after ran]
  exact holds

theorem Reads.bind {first : StateT S (Except E) A} {next : A → StateT S (Except E) B}
    (reads : Reads first) (follows : ∀ value, Reads (next value)) : Reads (first >>= next) := by
  intro state value after ran
  obtain ⟨found, between, ranFirst, ranNext⟩ := bind_ok.mp ran
  rw [follows found between value after ranNext, reads state found between ranFirst]

theorem reads_pure (value : A) : Reads (pure value : StateT S (Except E) A) :=
  fun _ _ _ ran => (pure_ok.mp ran).2

theorem reads_get : Reads (get : StateT S (Except E) S) := fun _ _ _ ran => (get_ok.mp ran).2

/-- A program that is run for every element of a list keeps what each run keeps. -/
theorem keeps_forM {program : A → StateT S (Except E) PUnit} {elements : List A}
    (keeps : ∀ element ∈ elements, Keeps kept (program element)) :
    Keeps kept (elements.forM program) := by
  induction elements with
  | nil => exact keeps_pure PUnit.unit
  | cons first rest ih =>
      apply Keeps.bind (keeps first List.mem_cons_self)
      intro _
      exact ih fun element member => keeps element (.tail first member)

end Rules

end Transactions
