/-
This file gives the rules for texts in a memory of bytes: what a store changes, and what it leaves.
-/

import Mathlib.Tactic

namespace ByteMemory

variable {A : Type}

/-- The cells from an address on. -/
def contents (memory : Nat → A) (start : Nat) : Nat → List A
  | 0 => []
  | length + 1 => memory start :: contents memory (start + 1) length

/-- The cells are written one after the other. -/
def store (memory : Nat → A) (start : Nat) : List A → Nat → A
  | [] => memory
  | cell :: cells => store (Function.update memory start cell) (start + 1) cells

section Rules

variable {memory other : Nat → A}

@[simp] theorem contents_length (memory : Nat → A) (length : Nat) :
    ∀ start, (contents memory start length).length = length := by
  induction length with
  | zero => exact fun _ => rfl
  | succ length ih => exact fun start => congrArg Nat.succ (ih (start + 1))

theorem contents_add (memory : Nat → A) (length more : Nat) :
    ∀ start, contents memory start (length + more) =
      contents memory start length ++ contents memory (start + length) more := by
  induction length with
  | zero =>
      intro start
      rw [Nat.zero_add]
      rfl
  | succ length ih =>
      intro start
      rw [Nat.add_right_comm, contents, contents, ih, List.cons_append, Nat.add_assoc, Nat.add_comm 1]

theorem contents_split (memory : Nat → A) (start : Nat) {front length : Nat} (inside : front ≤ length) :
    contents memory start length =
      contents memory start front ++ contents memory (start + front) (length - front) := by
  rw [← contents_add, Nat.add_sub_cancel' inside]

theorem contents_take (memory : Nat → A) (start : Nat) {front length : Nat} (inside : front ≤ length) :
    (contents memory start length).take front = contents memory start front := by
  rw [contents_split memory start inside, List.take_left' (contents_length memory front start)]

theorem contents_drop (memory : Nat → A) (start : Nat) {front length : Nat} (inside : front ≤ length) :
    (contents memory start length).drop front = contents memory (start + front) (length - front) := by
  rw [contents_split memory start inside, List.drop_left' (contents_length memory front start)]

theorem contents_head? (memory : Nat → A) (start : Nat) {length : Nat} (some : 0 < length) :
    (contents memory start length).head? = .some (memory start) := by
  obtain ⟨rest, rfl⟩ := Nat.exists_eq_add_of_lt some
  rw [Nat.zero_add, contents, List.head?_cons]

theorem contents_getElem? (memory : Nat → A) (start : Nat) {index length : Nat} (inside : index < length) :
    (contents memory start length)[index]? = some (memory (start + index)) := by
  rw [← List.head?_drop, contents_drop memory start (Nat.le_of_lt inside),
    contents_head? memory _ (Nat.sub_pos_of_lt inside)]

theorem contents_congr (length : Nat) : ∀ {start}, (∀ place, start ≤ place → place < start + length →
    memory place = other place) → contents memory start length = contents other start length := by
  induction length with
  | zero => exact fun _ => rfl
  | succ length ih =>
      intro start same
      rw [contents, contents, same start le_rfl (by omega)]
      congr 1
      exact ih fun place above below => same place (by omega) (by omega)

theorem store_append (cells more : List A) : ∀ (memory : Nat → A) (start : Nat),
    store memory start (cells ++ more) = store (store memory start cells) (start + cells.length) more := by
  induction cells with
  | nil => exact fun _ _ => rfl
  | cons cell cells ih =>
      intro memory start
      rw [List.cons_append, store, ih, store, List.length_cons, Nat.add_assoc, Nat.add_comm 1]

/-- Outside of the range nothing changes. -/
theorem store_outside (cells : List A) : ∀ (memory : Nat → A) {start place : Nat},
    place < start ∨ start + cells.length ≤ place → store memory start cells place = memory place := by
  induction cells with
  | nil => exact fun _ _ _ _ => rfl
  | cons cell cells ih =>
      intro memory start place outside
      rw [List.length_cons] at outside
      rw [store, ih _ (by omega), Function.update_of_ne (by omega)]

theorem contents_store (cells : List A) : ∀ (memory : Nat → A) (start : Nat),
    contents (store memory start cells) start cells.length = cells := by
  induction cells with
  | nil => exact fun _ _ => rfl
  | cons cell cells ih =>
      intro memory start
      rw [store, List.length_cons, contents, store_outside _ _ (.inl (Nat.lt_succ_self start)),
        Function.update_self, ih]

/-- What is before the range stays in front of it. -/
theorem contents_store_behind (memory : Nat → A) (start length : Nat) (cells : List A) :
    contents (store memory (start + length) cells) start (length + cells.length) =
      contents memory start length ++ cells := by
  rw [contents_add, contents_store]
  congr 1
  exact contents_congr length fun place _ below => store_outside _ _ (.inl below)

end Rules

end ByteMemory
