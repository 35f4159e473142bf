/-
This file shows that representations stay legible when deltas are made with care.
-/

import Subversion.Fs.Immutability

namespace Subversion.Fs

open Framing Delta SelfCopy

section Instructions

variable {window : TxdeltaWindow} {view longer : Bytes}

theorem slice_of_prefix (grows : view <+: longer) {offset length : Nat} {bytes : Bytes}
    (sliced : slice view offset length = some bytes) : slice longer offset length = some bytes := by
  obtain ⟨inside, rfl⟩ := slice_eq_some sliced
  obtain ⟨more, rfl⟩ := grows
  rw [slice, if_pos (by rw [List.length_append]; omega), List.drop_append_of_le_length (by omega),
    List.take_append_of_le_length (by rw [List.length_drop]; omega)]

theorem applyOp_of_prefix (grows : view <+: longer) {tbuf next : Bytes} {op : TxdeltaOp}
    (applied : applyOp window view tbuf op = some next) : applyOp window longer tbuf op = some next := by
  by_cases isSource : op.actionCode = .source
  · simp only [applyOp, isSource] at applied ⊢
    split at applied
    · cases applied
    · next allowed =>
        rw [if_neg allowed]
        split at applied
        · next inside =>
            obtain ⟨bytes, sliced, rfl⟩ := Option.map_eq_some_iff.mp applied
            rw [if_pos inside, slice_of_prefix grows sliced]
            rfl
        · cases applied
  · rw [applyOp_sbuf window longer view tbuf isSource]
    exact applied

/-- The instructions that play on a view build the same text from a longer one. -/
theorem applyInstructions_of_prefix (grows : view <+: longer) {text : Bytes}
    (applied : applyInstructions window view = some text) :
    applyInstructions window longer = some text := by
  have folded (ops : List TxdeltaOp) : ∀ {tbuf last : Bytes},
      ops.foldlM (applyOp window view) tbuf = some last →
      ops.foldlM (applyOp window longer) tbuf = some last := by
    induction ops with
    | nil => exact id
    | cons op ops ih =>
        intro tbuf last played
        simp only [List.foldlM_cons, Option.bind_eq_bind, Option.bind_eq_some_iff] at played ⊢
        obtain ⟨next, first, rest⟩ := played
        exact ⟨next, applyOp_of_prefix grows first, ih rest⟩
  unfold applyInstructions at applied ⊢
  split at applied
  · next last played =>
      rw [folded window.ops played]
      exact applied
  · cases applied

end Instructions

/-- The rep holds this text: a string, or a delta against an immutable rep that is legible. -/
inductive Legible (store : Store) : Nat → Bytes → Prop where
  | fulltext {key : Nat} {rep : Rep} {strKey : StrKey} {text : Bytes} (found : store.reps key = some rep)
      (kind : rep.kind = .fulltext strKey) (present : store.strings.text strKey = some text) :
      Legible store key text
  | delta {key : Nat} {rep : Rep} {entry : DeltaWindow} {window : TxdeltaWindow} {source text : Bytes}
      (found : store.reps key = some rep) (kind : rep.kind = .delta [entry])
      (good : GoodEntry store.strings entry window) (immutable : Immutable store entry.base)
      (base : Legible store entry.base source)
      (applied : applyInstructions window
        ((source.drop window.sviewOffset).take window.sviewLen) = some text)
      (size : entry.size = text.length) : Legible store key text

/-- Every rep that is there can be read. -/
def AllLegible (store : Store) : Prop :=
  ∀ key rep, store.reps key = some rep → ∃ text, Legible store key text

/-- A delta is made against an immutable rep, and no cycle of bases is closed. -/
def Careful (store : Store) : RepOp → Prop
  | .deltify target source =>
      Immutable store source ∧ ¬ Relation.ReflTransGen (DeltaBase store) source target
  | _ => True

section Reading

variable {store : Store} {key : Nat} {text : Bytes}

/-- What a legible rep holds is what the reader returns, and its length is the size. -/
theorem Legible.serves (legible : Legible store key text) :
    (∃ depth, Serves (repReadRange store (depth + 1)) key text) ∧
      repContentsSize store key = .ok text.length := by
  induction legible with
  | fulltext found kind present =>
      obtain ⟨serves, sized⟩ := fulltext_serves found kind present 0
      exact ⟨⟨0, serves⟩, sized⟩
  | delta found kind good immutable base applied size ih =>
      obtain ⟨⟨depth, serves⟩, -⟩ := ih
      have short := good.short
      have length := applyInstructions_length applied
      simp only [streamChunkSize, size] at short
      obtain ⟨final, played, rfl⟩ := playAll_applyInstructions (serves _ _) applied (by omega)
      obtain ⟨servesText, sized⟩ := delta_serves found kind good played size.symm
      exact ⟨⟨depth + 1, servesText⟩, sized⟩

/-- A legible fulltext holds its string. -/
theorem Legible.string (legible : Legible store key text) {rep : Rep} {strKey : StrKey}
    (found : store.reps key = some rep) (kind : rep.kind = .fulltext strKey) :
    store.strings.text strKey = some text := by
  cases legible with
  | fulltext isFound isKind present =>
      rw [found] at isFound
      cases isFound
      rw [kind] at isKind
      cases isKind
      exact present
  | delta isFound isKind =>
      rw [found] at isFound
      cases isFound
      rw [kind] at isKind
      cases isKind

/-- No other text is read from a legible rep. -/
theorem Legible.unique (invariant : RepsInvariant store) (legible : Legible store key text)
    {depth : Nat} {other : Bytes} (serves : Serves (repReadRange store depth) key other) :
    other = text := by
  obtain ⟨⟨enough, servesText⟩, -⟩ := legible.serves
  exact serves_unique (invariant.serves_mono (Nat.le_max_left depth (enough + 1)) serves)
    (invariant.serves_mono (Nat.le_max_right depth (enough + 1)) servesText)

end Reading

section Steps

variable {store next : Store} {key changed depth : Nat} {text : Bytes}

/-- A rep that does not change stays legible when an immutable rep behind it only grows. -/
theorem Legible.carry (legible : Legible store key text)
    (agree : ∀ other, other ≠ changed → AgreeAt store next other)
    (grown : Immutable store changed → Relation.ReflTransGen (DeltaBase store) key changed →
      ∀ text, Legible store changed text →
        Immutable next changed ∧ ∃ longer, text <+: longer ∧ Legible next changed longer)
    (distinct : key ≠ changed) : Legible next key text := by
  induction legible with
  | fulltext found kind present =>
      have here := agree _ distinct
      refine .fulltext (here.reps.trans found) kind ?_
      rw [StringsTable.text, here.strings _ found _ (by rw [kind]; exact List.mem_singleton_self _)]
      exact present
  | @delta key rep entry window source text found kind good immutable base applied size ih =>
      have here := agree key distinct
      have isBase : DeltaBase store key entry.base :=
        ⟨rep, [entry], entry, found, kind, List.mem_singleton_self _, rfl⟩
      have kept := here.strings rep found entry.strKey (by rw [kind]; exact List.mem_singleton_self _)
      have carried : Immutable next entry.base ∧
          ∃ longer, source <+: longer ∧ Legible next entry.base longer := by
        by_cases same : entry.base = changed
        · subst same
          exact grown immutable (Relation.ReflTransGen.single isBase) source base
        · refine ⟨?_, source, List.prefix_rfl, ?_⟩
          · obtain ⟨other, isOther, flag⟩ := immutable
            exact ⟨other, (agree _ same).reps.trans isOther, flag⟩
          · exact ih (fun isImmutable reaches =>
              grown isImmutable (Relation.ReflTransGen.head isBase reaches)) same
      obtain ⟨immutableNext, longer, grows, baseNext⟩ := carried
      refine .delta (here.reps.trans found) kind (good.of_kept kept) immutableNext baseNext ?_ size
      exact applyInstructions_of_prefix ((grows.drop _).take _) applied

theorem AllLegible.replace (legible : AllLegible store) {rep : Option Rep}
    (replaces : Replaces store next changed rep)
    (new : rep ≠ none → ∃ text, Legible next changed text)
    (grown : Immutable store changed → ∀ text, Legible store changed text →
      Immutable next changed ∧ ∃ longer, text <+: longer ∧ Legible next changed longer) :
    AllLegible next := by
  intro key found stored
  by_cases same : key = changed
  · subst same
    rw [replaces.this] at stored
    exact new (by rw [stored]; exact Option.some_ne_none found)
  · rw [replaces.other same] at stored
    obtain ⟨text, isText⟩ := legible key found stored
    exact ⟨text, isText.carry (fun other => replaces.agreeAt) (fun immutable _ => grown immutable) same⟩

/-- A rep that is not immutable is no base, so any fulltext may replace it. -/
theorem AllLegible.replace_mutable (legible : AllLegible store) (loose : ¬ Immutable store changed)
    {rep : Rep} {strKey : StrKey} (replaces : Replaces store next changed (some rep))
    (kind : rep.kind = .fulltext strKey) (present : next.strings.text strKey = some text) :
    AllLegible next :=
  legible.replace replaces (fun _ => ⟨text, .fulltext replaces.this kind present⟩)
    fun immutable => absurd immutable loose

theorem not_immutable {rep : Rep} (found : store.reps key = some rep) (flag : rep.mutable = true) :
    ¬ Immutable store key := by
  rintro ⟨other, isOther, isImmutable⟩
  rw [found] at isOther
  cases isOther
  rw [flag] at isImmutable
  cases isImmutable

/-- Strings that only grow keep every rep legible. -/
theorem AllLegible.grow (legible : AllLegible store) (invariant : RepsInvariant store)
    (reps : next.reps = store.reps) (grows : Grows store.strings next.strings) : AllLegible next := by
  intro key rep found
  rw [reps] at found
  obtain ⟨text, isText⟩ := legible key rep found
  have agree (other : Nat) : AgreeAt store next other :=
    ⟨by rw [reps], fun rep found strKey member => invariant.grown_kept grows found member⟩
  have others : ∀ other, other ≠ store.nextRep → AgreeAt store next other := fun other _ => agree other
  refine ⟨text, isText.carry others ?_ ?_⟩
  · rintro ⟨other, isOther, -⟩
    exact absurd (invariant.in_range isOther) (lt_irrefl _)
  · exact ne_of_lt (invariant.in_range found)

/-- The base of a new delta is not built from the target, so it is read as before. -/
theorem AllLegible.deltified (legible : AllLegible store) (invariant : RepsInvariant store)
    {target source : Nat} {sourceText targetText : Bytes} {entry : DeltaWindow}
    {window : TxdeltaWindow} (immutable : Immutable store source)
    (avoids : ¬ Relation.ReflTransGen (DeltaBase store) source target)
    (deltified : Deltified store next depth target source sourceText targetText entry window) :
    AllLegible next := by
  have distinct : source ≠ target := by
    rintro rfl
    exact avoids Relation.ReflTransGen.refl
  have replaces := deltified.replaces
  have agree (other : Nat) (different : other ≠ target) : AgreeAt store next other :=
    replaces.agreeAt different
  have baseLegible : Legible next source sourceText := by
    obtain ⟨rep, found, -⟩ := immutable
    obtain ⟨text, isText⟩ := legible source rep found
    obtain rfl := isText.unique invariant deltified.sourceServes
    exact isText.carry agree (fun _ reaches => absurd reaches avoids) distinct
  have immutableNext : Immutable next source := immutable.replace replaces fun same => absurd same distinct
  have targetLegible : Legible next target targetText := by
    refine .delta replaces.this rfl deltified.good ?_ ?_ deltified.applied deltified.size
    · rw [deltified.base]
      exact immutableNext
    · rw [deltified.base]
      exact baseLegible
  apply legible.replace replaces
  · exact fun _ => ⟨targetText, targetLegible⟩
  · intro _ text isText
    obtain rfl := isText.unique invariant deltified.targetServes
    exact ⟨⟨_, replaces.this, rfl⟩, _, List.prefix_rfl, targetLegible⟩

/-- A careful operation leaves every rep legible. -/
theorem AllLegible.step (legible : AllLegible store) (invariant : RepsInvariant store) {op : RepOp}
    (careful : Careful store op) (ran : runRepOp store depth op = .ok next) : AllLegible next := by
  cases op with
  | getMutable rep =>
      simp only [runRepOp] at ran
      cases got : getMutableRep store depth rep with
      | error error => rw [got] at ran; cases ran
      | ok result =>
          rw [got] at ran
          cases ran
          rcases invariant.getMutableRep_replaces got with
            ⟨-, same, -⟩ | ⟨isNew, -, strKey, bytes, replaces, present, -⟩
          · rw [same]
            exact legible
          · refine legible.replace_mutable ?_ replaces rfl present
            rintro ⟨other, isOther, -⟩
            exact absurd (invariant.in_range isOther) (by omega)
  | makeImmutable rep =>
      obtain ⟨old, found, strings, -, replaces⟩ := invariant.makeRepImmutable_replaces ran
      cases flag : old.mutable with
      | false =>
          simp only [runRepOp, makeRepImmutable, readRep, found, flag, Bool.false_eq_true, if_false] at ran
          cases ran
          exact legible
      | true =>
          cases kind : old.kind with
          | fulltext strKey =>
              obtain ⟨text, isText⟩ := legible rep old found
              have present : next.strings.text strKey = some text := by
                rw [strings]
                exact isText.string found kind
              exact legible.replace_mutable (not_immutable found flag) replaces kind present
          | delta windows =>
              have immutable := (invariant.single rep old windows found kind).1
              rw [flag] at immutable
              cases immutable
  | deleteIfMutable rep =>
      obtain ⟨old, found, -, ⟨-, same⟩ | ⟨flag, replaces⟩⟩ := invariant.deleteRepIfMutable_replaces ran
      · rw [same]
        exact legible
      · exact legible.replace replaces (fun new => absurd rfl new)
          fun immutable => absurd immutable (not_immutable found flag)
  | write rep bytes =>
      obtain ⟨old, strKey, found, kind, -, replaces, grown⟩ := invariant.repWrite_replaces ran
      have appended {text : Bytes} (isText : Legible store rep text) :
          Legible next rep (text ++ bytes) :=
        .fulltext replaces.this kind (grown text (isText.string found kind))
      obtain ⟨text, isText⟩ := legible rep old found
      apply legible.replace replaces
      · exact fun _ => ⟨text ++ bytes, appended isText⟩
      · intro immutable text isText
        refine ⟨?_, text ++ bytes, List.prefix_append text bytes, appended isText⟩
        refine immutable.replace replaces fun _ => ⟨old, rfl, ?_⟩
        obtain ⟨other, isOther, flag⟩ := immutable
        rw [found] at isOther
        cases isOther
        exact flag
  | clear rep =>
      obtain ⟨old, strKey, found, flag, kind, -, replaces, empty⟩ :=
        invariant.repContentsClear_replaces ran
      exact legible.replace_mutable (not_immutable found flag) replaces kind empty
  | deltify target source =>
      obtain ⟨-, ⟨reps, grows⟩ | ⟨sourceText, targetText, entry, window, deltified⟩⟩ :=
        invariant.repDeltify_effect ran
      · exact legible.grow invariant reps grows
      · exact legible.deltified invariant careful.1 careful.2 deltified
  | undeltify rep =>
      obtain ⟨-, same | ⟨text, strKey, serves, -, present, replaces⟩⟩ := invariant.repUndeltify_effect ran
      · rw [same]
        exact legible
      · have whole : Legible next rep text := .fulltext replaces.this rfl present
        apply legible.replace replaces
        · exact fun _ => ⟨text, whole⟩
        · intro _ other isOther
          obtain rfl := isOther.unique invariant serves
          exact ⟨⟨_, replaces.this, rfl⟩, _, List.prefix_rfl, whole⟩

end Steps

end Subversion.Fs
