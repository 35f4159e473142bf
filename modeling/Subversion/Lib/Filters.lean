/-
This file states when a filter of bytes does not depend on how its input is cut into chunks.
-/

import Mathlib.Tactic

namespace Filters

variable {S A B : Type}

/-- A chunk goes in, bytes come out, and a state is carried to the next chunk. -/
abbrev Filter (S A B : Type) := S → List A → S × List B

/-- All chunks, one after the other. -/
def runChunks (filter : Filter S A B) : S → List (List A) → S × List B
  | state, [] => (state, [])
  | state, chunk :: chunks =>
      let (next, out) := filter state chunk
      let (last, rest) := runChunks filter next chunks
      (last, out ++ rest)

theorem runChunks_cons (filter : Filter S A B) (state : S) (chunk : List A) (chunks : List (List A)) :
    runChunks filter state (chunk :: chunks) =
      ((runChunks filter (filter state chunk).1 chunks).1,
        (filter state chunk).2 ++ (runChunks filter (filter state chunk).1 chunks).2) := rfl

/-- The filter goes on in the middle of its input. -/
structure Seamless (filter : Filter S A B) : Prop where
  nil : ∀ state, filter state [] = (state, [])
  append : ∀ state first second, filter state (first ++ second) =
    ((filter (filter state first).1 second).1,
      (filter state first).2 ++ (filter (filter state first).1 second).2)

theorem Seamless.runChunks {filter : Filter S A B} (seamless : Seamless filter)
    (chunks : List (List A)) :
    ∀ state, runChunks filter state chunks = filter state chunks.flatten := by
  induction chunks with
  | nil => exact fun state => (seamless.nil state).symm
  | cons chunk chunks ih =>
      intro state
      rw [List.flatten_cons, seamless.append, runChunks_cons, ih]

/-- One element at a time. -/
def perElement (step : S → A → S × List B) : Filter S A B
  | state, [] => (state, [])
  | state, element :: rest =>
      let (next, out) := step state element
      let (last, more) := perElement step next rest
      (last, out ++ more)

theorem perElement_cons (step : S → A → S × List B) (state : S) (element : A) (rest : List A) :
    perElement step state (element :: rest) =
      ((perElement step (step state element).1 rest).1,
        (step state element).2 ++ (perElement step (step state element).1 rest).2) := rfl

theorem seamless_perElement (step : S → A → S × List B) : Seamless (perElement step) where
  nil := fun _ => rfl
  append := by
    intro state first second
    induction first generalizing state with
    | nil => rfl
    | cons element rest ih =>
        rw [List.cons_append, perElement_cons, perElement_cons, ih]
        simp only [List.append_assoc]

/-- A property of a byte is checked for all bytes. -/
theorem forall_byte {property : UInt8 → Prop} [DecidablePred property]
    (holds : ∀ n < 256, property (UInt8.ofNat n)) (byte : UInt8) : property byte := by
  have := holds byte.toNat byte.toNat_lt
  rwa [UInt8.ofNat_toNat] at this

/-- A property of a byte and a few bits of another is checked for all pairs. -/
theorem forall_bytes {bound : Nat} {property : UInt8 → UInt8 → Prop}
    [∀ byte part, Decidable (property byte part)]
    (holds : ∀ n < 256, ∀ m < bound, property (UInt8.ofNat n) (UInt8.ofNat m)) (byte part : UInt8)
    (small : part.toNat < bound) : property byte part := by
  have := holds byte.toNat byte.toNat_lt part.toNat small
  rwa [UInt8.ofNat_toNat, UInt8.ofNat_toNat] at this

end Filters
