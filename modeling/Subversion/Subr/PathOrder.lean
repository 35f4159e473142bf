/-
This file shows that paths are sorted by a lexicographic key, so that the paths below one directory stand together.
-/

import Mathlib.Data.List.Lex
import Mathlib.Order.Lattice
import Subversion.Subr.Path

namespace Subversion.Subr

open Delta Lib

def byteRank (byte : UInt8) : Int := if byte = separator then 256 else signedByte byte

/-- Paths are sorted by the list of their ranks, with the terminator at the end. -/
def sortKey (path : Bytes) : List Int := path.map byteRank ++ [0]

theorem byteRank_injective : Function.Injective byteRank := by
  intro byte₁ byte₂ same
  have bound₁ := byte₁.toNat_lt
  have bound₂ := byte₂.toNat_lt
  rw [byteRank, byteRank, signedByte, signedByte] at same
  by_cases first : byte₁ = separator
  · by_cases second : byte₂ = separator
    · rw [first, second]
    · rw [if_pos first, if_neg second] at same
      split at same <;> omega
  · by_cases second : byte₂ = separator
    · rw [if_neg first, if_pos second] at same
      split at same <;> omega
    · rw [if_neg first, if_neg second] at same
      apply UInt8.toNat_inj.mp
      split at same <;> split at same <;> omega

theorem byteRank_ne_zero {byte : UInt8} (present : byte ≠ 0) : byteRank byte ≠ 0 := by
  intro zero
  exact present (byteRank_injective (zero.trans (by decide)))

theorem sortKey_cons (byte : UInt8) (path : Bytes) :
    sortKey (byte :: path) = byteRank byte :: sortKey path := rfl

theorem byteRank_separator : byteRank separator = 256 := if_pos rfl

theorem byteRank_of_ne {byte : UInt8} (other : byte ≠ separator) : byteRank byte = signedByte byte :=
  if_neg other

theorem byteRank_lt_separator {byte : UInt8} (other : byte ≠ separator) : byteRank byte < 256 := by
  have bound := byte.toNat_lt
  rw [byteRank_of_ne other, signedByte]
  split <;> omega

/-- Two different bytes are compared by their ranks. -/
theorem comparePaths_cons_cons {byte₁ byte₂ : UInt8} (differ : byte₁ ≠ byte₂) (path₁ path₂ : Bytes) :
    comparePaths (byte₁ :: path₁) (byte₂ :: path₂) = if byteRank byte₁ < byteRank byte₂ then -1 else 1 := by
  rw [comparePaths, if_neg differ]
  by_cases first : byte₁ = separator
  · have other : byte₂ ≠ separator := fun same => differ (first.trans same.symm)
    have below := byteRank_lt_separator other
    rw [if_pos first, first, byteRank_separator, if_neg (by omega)]
  · rw [if_neg first]
    by_cases second : byte₂ = separator
    · have below := byteRank_lt_separator first
      rw [if_pos second, second, byteRank_separator, if_pos below]
    · rw [if_neg second, byteRank_of_ne first, byteRank_of_ne second]

theorem comparePaths_nil_cons (byte : UInt8) (path : Bytes) :
    comparePaths [] (byte :: path) = if 0 < byteRank byte then -1 else 1 := by
  rw [comparePaths]
  by_cases isSeparator : byte = separator
  · rw [if_pos isSeparator, isSeparator, byteRank_separator]
    rfl
  · rw [if_neg isSeparator, byteRank_of_ne isSeparator]

theorem comparePaths_cons_nil (byte : UInt8) (path : Bytes) :
    comparePaths (byte :: path) [] = if byteRank byte < 0 then -1 else 1 := by
  rw [comparePaths]
  by_cases isSeparator : byte = separator
  · rw [if_pos isSeparator, isSeparator, byteRank_separator]
    rfl
  · rw [if_neg isSeparator, byteRank_of_ne isSeparator]

/-- The comparison is the lexicographic one of the keys. -/
theorem comparePaths_cases (path₁ : Bytes) :
    ∀ path₂, 0 ∉ path₁ → 0 ∉ path₂ →
      (comparePaths path₁ path₂ = -1 ∧ sortKey path₁ < sortKey path₂) ∨
        (comparePaths path₁ path₂ = 0 ∧ path₁ = path₂) ∨
        (comparePaths path₁ path₂ = 1 ∧ sortKey path₂ < sortKey path₁) := by
  induction path₁ with
  | nil =>
      intro path₂ _ nulFree
      cases path₂ with
      | nil => exact .inr (.inl ⟨rfl, rfl⟩)
      | cons byte path₂ =>
          have rank : byteRank byte ≠ 0 :=
            byteRank_ne_zero fun zero => nulFree (zero ▸ List.mem_cons_self)
          rw [comparePaths_nil_cons, sortKey_cons]
          rcases lt_or_gt_of_ne rank with negative | positive
          · rw [if_neg (by omega)]
            exact .inr (.inr ⟨rfl, List.cons_lt_cons_iff.mpr (.inl negative)⟩)
          · rw [if_pos positive]
            exact .inl ⟨rfl, List.cons_lt_cons_iff.mpr (.inl positive)⟩
  | cons byte₁ path₁ ih =>
      intro path₂ nulFree₁ nulFree₂
      cases path₂ with
      | nil =>
          have rank : byteRank byte₁ ≠ 0 :=
            byteRank_ne_zero fun zero => nulFree₁ (zero ▸ List.mem_cons_self)
          rw [comparePaths_cons_nil, sortKey_cons]
          rcases lt_or_gt_of_ne rank with negative | positive
          · rw [if_pos negative]
            exact .inl ⟨rfl, List.cons_lt_cons_iff.mpr (.inl negative)⟩
          · rw [if_neg (by omega)]
            exact .inr (.inr ⟨rfl, List.cons_lt_cons_iff.mpr (.inl positive)⟩)
      | cons byte₂ path₂ =>
          by_cases same : byte₁ = byte₂
          · subst same
            rw [comparePaths, if_pos rfl, sortKey_cons, sortKey_cons]
            rcases ih path₂ (fun member => nulFree₁ (List.mem_cons_of_mem _ member))
              (fun member => nulFree₂ (List.mem_cons_of_mem _ member)) with
              ⟨result, less⟩ | ⟨result, rfl⟩ | ⟨result, greater⟩
            · exact .inl ⟨result, List.cons_lt_cons_iff.mpr (.inr ⟨rfl, less⟩)⟩
            · exact .inr (.inl ⟨result, rfl⟩)
            · exact .inr (.inr ⟨result, List.cons_lt_cons_iff.mpr (.inr ⟨rfl, greater⟩)⟩)
          · rw [comparePaths_cons_cons same, sortKey_cons, sortKey_cons]
            rcases lt_or_gt_of_ne (fun equal => same (byteRank_injective equal)) with less | greater
            · rw [if_pos less]
              exact .inl ⟨rfl, List.cons_lt_cons_iff.mpr (.inl less)⟩
            · rw [if_neg (by omega)]
              exact .inr (.inr ⟨rfl, List.cons_lt_cons_iff.mpr (.inl greater)⟩)

theorem comparePaths_le_iff {path₁ path₂ : Bytes} (nulFree₁ : 0 ∉ path₁) (nulFree₂ : 0 ∉ path₂) :
    comparePaths path₁ path₂ ≤ 0 ↔ sortKey path₁ ≤ sortKey path₂ := by
  rcases comparePaths_cases path₁ path₂ nulFree₁ nulFree₂ with
    ⟨result, less⟩ | ⟨result, rfl⟩ | ⟨result, greater⟩
  · exact ⟨fun _ => less.le, fun _ => by omega⟩
  · exact ⟨fun _ => le_rfl, fun _ => by omega⟩
  · exact ⟨fun le => by omega, fun le => absurd greater (not_lt.mpr le)⟩

/-- What lies between two lists that begin alike begins like them. -/
theorem prefix_of_between {common : List Int} :
    ∀ {tail₁ between tail₂ : List Int}, common ++ tail₁ < between → between < common ++ tail₂ →
      common <+: between := by
  induction common with
  | nil => exact fun _ _ => List.nil_prefix
  | cons first common ih =>
      intro tail₁ between tail₂ above below
      cases between with
      | nil => exact absurd above (List.not_lt_nil _)
      | cons other between =>
          rw [List.cons_append, List.cons_lt_cons_iff] at above below
          rcases above with strict | ⟨rfl, above⟩
          · rcases below with reverse | ⟨rfl, -⟩
            · omega
            · omega
          · rcases below with reverse | ⟨-, below⟩
            · omega
            · exact (List.prefix_cons_inj first).mpr (ih above below)

/-- A path begins like another one if its key does. -/
theorem prefix_of_sortKey {path longer : Bytes} (nulFree : 0 ∉ path)
    (isPrefix : path.map byteRank <+: sortKey longer) : path <+: longer := by
  rw [sortKey, List.prefix_concat_iff] at isPrefix
  rcases isPrefix with whole | inside
  · exfalso
    have zero : (0 : Int) ∈ path.map byteRank := by
      rw [whole]
      exact List.mem_append_right _ List.mem_cons_self
    obtain ⟨byte, member, rank⟩ := List.mem_map.mp zero
    exact byteRank_ne_zero (fun isZero => nulFree (isZero ▸ member)) rank
  · exact (List.prefix_map_iff_of_injective byteRank_injective).mp inside

theorem sortKey_append (path rest : Bytes) : sortKey (path ++ rest) = path.map byteRank ++ sortKey rest := by
  rw [sortKey, sortKey, List.map_append, List.append_assoc]

/-- A byte after a path puts it before or after the path. -/
theorem sortKey_lt_append_cons {path rest : Bytes} {byte : UInt8} :
    0 < byteRank byte → sortKey path < sortKey (path ++ byte :: rest) := by
  intro positive
  rw [sortKey_append, sortKey, sortKey_cons]
  exact List.append_left_lt (List.cons_lt_cons_iff.mpr (.inl positive))

/-- A component up to its separator is the first component of a path that begins with it. -/
theorem component_of_prefix {rest : Bytes} (after : AfterComponent rest) (component : Bytes) :
    ∀ {other more : Bytes}, separator ∉ component → separator ∉ other →
      component ++ separator :: more <+: other ++ rest →
        component = other ∧ separator :: more <+: rest := by
  induction component with
  | nil =>
      intro other more _ absent isPrefix
      cases other with
      | nil => exact ⟨rfl, isPrefix⟩
      | cons byte other =>
          have same := (List.cons_prefix_cons.mp isPrefix).1
          exact absurd (same ▸ List.mem_cons_self) absent
  | cons byte component ih =>
      intro other more absent₁ absent₂ isPrefix
      rw [List.mem_cons, not_or] at absent₁
      cases other with
      | nil =>
          rcases after with rfl | ⟨tail, rfl⟩
          · exact absurd (List.prefix_nil.mp isPrefix) (by simp)
          · exact absurd (List.cons_prefix_cons.mp isPrefix).1.symm absent₁.1
      | cons first other =>
          rw [List.mem_cons, not_or] at absent₂
          obtain ⟨rfl, tails⟩ := List.cons_prefix_cons.mp isPrefix
          obtain ⟨rfl, remaining⟩ := ih absent₁.2 absent₂.2 tails
          exact ⟨rfl, remaining⟩

/-- A path lies below another one if its text goes on after a separator. -/
theorem belowPath_separator_prefix_iff (components₁ : List Bytes) :
    ∀ {components₂ : List Bytes}, (∀ name ∈ components₁, IsComponent name) →
      (∀ name ∈ components₂, IsComponent name) →
      (belowPath components₁ ++ [separator] <+: belowPath components₂ ↔
        components₁ <+: components₂ ∧ components₁ ≠ components₂) := by
  induction components₁ with
  | nil =>
      intro components₂ _ _
      cases components₂ with
      | nil => simp [belowPath]
      | cons component rest => simp [belowPath]
  | cons component components₁ ih =>
      intro components₂ names₁ names₂
      cases components₂ with
      | nil => simp [belowPath]
      | cons other components₂ =>
          have later := ih (fun name member => names₁ name (List.mem_cons_of_mem _ member))
            fun name member => names₂ name (List.mem_cons_of_mem _ member)
          have starts : ∃ more, belowPath components₁ ++ [separator] = separator :: more := by
            cases components₁ with
            | nil => exact ⟨[], rfl⟩
            | cons first rest => exact ⟨_, rfl⟩
          obtain ⟨more, shape⟩ := starts
          rw [belowPath_cons, belowPath_cons, List.cons_append, List.append_assoc,
            List.prefix_cons_inj, List.cons_prefix_cons]
          constructor
          · intro isPrefix
            rw [shape] at isPrefix
            obtain ⟨rfl, remaining⟩ := component_of_prefix (afterComponent_belowPath components₂)
              component (names₁ component List.mem_cons_self).2 (names₂ other List.mem_cons_self).2
              isPrefix
            rw [← shape, later] at remaining
            exact ⟨⟨rfl, remaining.1⟩, fun same => remaining.2 (List.cons.inj same).2⟩
          · rintro ⟨⟨rfl, inside⟩, differ⟩
            rw [List.prefix_append_right_inj, later]
            exact ⟨inside, fun same => differ (by rw [same])⟩

end Subversion.Subr
