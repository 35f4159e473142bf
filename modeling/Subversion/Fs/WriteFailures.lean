/-
This file models writes that fail, and shows which of these failures are not noticed.
-/

import Subversion.Delta.TextDelta
import Subversion.Fs.Directories
import Subversion.Fs.Edits

namespace Subversion.Fs

open Delta Framing Transactions

namespace Trail

/-- A write that may fail. -/
def written (failure : Option SvnError) (write : Trail Unit) : Trail Unit :=
  match failure with
  | some error => fail error
  | none => write

/-- A write to a stream, whose error is dropped. -/
def droppedWrite (failure : Option SvnError) (key : Nat) (bytes : Bytes) : Trail Unit := fun fs =>
  match written failure (changeStore fun store => repWrite store key bytes) fs with
  | .ok result => .ok result
  | .error _ => .ok ((), fs)

/-- The writes of `set_entry`, in their order. -/
structure SetEntryFailures where
  newRep : Option SvnError
  nodeRevision : Option SvnError
  emptyList : Option SvnError
  clear : Option SvnError
  newList : Option SvnError

/-- A rep that is mutable already is not written. -/
def mutableDataKeyFailing (failures : SetEntryFailures) (depth : Nat) (id : NodeId) (node : NodeRev) :
    Trail Nat := do
  let key ← withStore fun store => getMutableRep store depth node.dataKey
  if node.dataKey = some key then pure key
  else
    written failures.newRep (pure ())
    written failures.nodeRevision (putNodeRevision id { node with dataKey := some key })
    pure key

def rewriteEntriesFailing (failures : SetEntryFailures) (depth key : Nat)
    (change : List Entry → List Entry) : Trail Unit := do
  let entries ← readStore fun store =>
    match repContents store depth key with
    | .error error => .error error
    | .ok raw => parseEntries raw
  written failures.clear (changeStore fun store => repContentsClear store key)
  droppedWrite failures.newList key (unparseEntries (change entries))

def setEntryFailing (failures : SetEntryFailures) (depth : Nat) (parent : NodeId) (name : Bytes)
    (id : NodeId) : Trail Unit := do
  let node ← getNodeRevision parent
  let key ← mutableDataKeyFailing failures depth parent node
  if node.dataKey = none then droppedWrite failures.emptyList key emptyListText else pure ()
  rewriteEntriesFailing failures depth key fun entries => tweakEntry entries name (unparseId id)

end Trail

section SetEntry

variable {lists : Set Nat} {kinds : Nat → NodeKind} {streams : List Trail.Stream} {fs next : Filesystem}
  {depth key : Nat} {parent id : NodeId} {node : NodeRev} {failures : Trail.SetEntryFailures}

theorem Trail.written_ok {failure : Option SvnError} {write : Trail Unit} {value : Unit} :
    Trail.written failure write fs = .ok (value, next) ↔
      failure = none ∧ write fs = .ok (value, next) := by
  cases failure with
  | none => simp [Trail.written]
  | some error => simp [Trail.written, fail]

theorem Trail.droppedWrite_none (key : Nat) (bytes : Bytes) :
    Trail.droppedWrite none key bytes = Trail.streamWrite key bytes := by
  funext fs
  rw [Trail.droppedWrite, Trail.streamWrite, Trail.written, changeStore, withStore]
  cases repWrite fs.store key bytes with
  | error error => rfl
  | ok store => rfl

theorem Trail.droppedWrite_some (error : SvnError) (key : Nat) (bytes : Bytes) :
    Trail.droppedWrite (some error) key bytes fs = .ok ((), fs) := rfl

/-- Without failures, this is `set_entry`. -/
theorem Trail.setEntryFailing_none (depth : Nat) (parent : NodeId) (name : Bytes) (id : NodeId) :
    Trail.setEntryFailing ⟨none, none, none, none, none⟩ depth parent name id =
      Trail.setEntryUnchecked depth parent name id := by
  simp only [Trail.setEntryFailing, Trail.setEntryUnchecked, Trail.mutableDataKeyFailing,
    Trail.rewriteEntriesFailing, Trail.mutableDataKey, Trail.rewriteEntries, Trail.droppedWrite_none]
  rfl

/-- Failures before the list is read are noticed. -/
theorem Trail.mutableDataKeyFailing_ok
    (ran : Trail.mutableDataKeyFailing failures depth id node fs = .ok (key, next)) :
    Trail.mutableDataKey depth id node fs = .ok (key, next) := by
  simp only [Trail.mutableDataKeyFailing, Trail.mutableDataKey, bind_ok] at ran ⊢
  obtain ⟨found, middle, got, ran⟩ := ran
  refine ⟨found, middle, got, ?_⟩
  split at ran
  · next same =>
      rw [if_pos same]
      exact ran
  · next different =>
      rw [if_neg different]
      simp only [bind_ok, Trail.written_ok, pure_ok] at ran ⊢
      obtain ⟨_, _, ⟨-, -, rfl⟩, _, last, ⟨-, put⟩, same⟩ := ran
      exact ⟨(), last, put, same⟩

theorem Trail.mutableDataKey_keyed (found : fs.node id = some node)
    (ran : Trail.mutableDataKey depth id node fs = .ok (key, next)) :
    next.node id = some { node with dataKey := some key } := by
  obtain ⟨store, got, ends⟩ := Trail.mutableDataKey_ok.mp ran
  split at ends
  · next same =>
      rw [ends, Filesystem.node_setStore, found, ← same]
  · rw [ends.2, Filesystem.node_putNode, if_pos rfl]

/-- After the clear, nothing is left of the list unless the new one is written. -/
theorem Trail.rewriteEntriesFailing_ok {change : List Entry → List Entry} (reps : RepsReachable fs.store)
    (ran : Trail.rewriteEntriesFailing failures depth key change fs = .ok ((), next)) :
    (∃ raw entries, repContents fs.store depth key = .ok raw ∧ parseEntries raw = .ok entries) ∧
      ((failures.newList = none ∧ Trail.rewriteEntries depth key change fs = .ok ((), next)) ∨
        (failures.newList ≠ none ∧ (∀ id, next.node id = fs.node id) ∧
          ∀ depth, repContents next.store (depth + 1) key = .ok [])) := by
  simp only [Trail.rewriteEntriesFailing, bind_ok, Trail.written_ok, changeStore_ok] at ran
  obtain ⟨entries, middle, read, _, empty, ⟨-, store, cleared, rfl⟩, ran⟩ := ran
  obtain ⟨isRead, rfl⟩ := readStore_ok.mp read
  refine ⟨?_, ?_⟩
  · split at isRead
    · cases isRead
    · next raw contents => exact ⟨raw, entries, contents, isRead⟩
  · cases failed : failures.newList with
    | none =>
        rw [failed, Trail.droppedWrite_none] at ran
        refine Or.inl ⟨rfl, ?_⟩
        simp only [Trail.rewriteEntries, bind_ok]
        exact ⟨entries, _, read, (), _, changeStore_ok.mpr ⟨store, cleared, rfl⟩, ran⟩
    | some error =>
        rw [failed, Trail.droppedWrite_some] at ran
        cases ran
        refine Or.inr ⟨by simp, fun _ => rfl, fun depth => ?_⟩
        obtain ⟨rep, strKey, -, -, kind, -, replaces, text⟩ :=
          reps.invariant.repContentsClear_replaces cleared
        rw [Filesystem.store_setStore, repContents, repContentsSize_fulltext replaces.this kind,
          stringSize_eq text]
        dsimp only
        rw [repReadRange_fulltext replaces.this kind, stringRead_eq text]
        rfl

/-- A write of the empty list that fails leaves no list to be read. -/
theorem Trail.setEntryFailing_rewrites (sound : Sound lists kinds streams fs)
    (found : fs.node parent = some node) {name : Bytes}
    (ran : Trail.setEntryFailing failures depth parent name id fs = .ok ((), next)) :
    ∃ key middle, RepsReachable middle.store ∧ middle.node parent = some { node with dataKey := some key } ∧
      Trail.rewriteEntriesFailing failures depth key (fun entries => tweakEntry entries name (unparseId id))
        middle = .ok ((), next) ∧
      (Trail.rewriteEntries depth key (fun entries => tweakEntry entries name (unparseId id))
          middle = .ok ((), next) →
        Trail.setEntryUnchecked depth parent name id fs = .ok ((), next)) := by
  simp only [Trail.setEntryFailing, bind_ok, Trail.getNodeRevision_ok] at ran
  obtain ⟨_, fs, ⟨again, rfl⟩, key, middle, keyedFailing, ran⟩ := ran
  rw [found] at again
  cases again
  have keyed := Trail.mutableDataKeyFailing_ok keyedFailing
  have between := Trail.mutableDataKey_reachable sound.reps keyed
  have placed := Trail.mutableDataKey_keyed found keyed
  split at ran
  · next unnamed =>
      obtain ⟨_, last, emptied, rewrites⟩ := bind_ok.mp ran
      obtain ⟨store, got, ends⟩ := Trail.mutableDataKey_ok.mp keyed
      rw [unnamed] at got ends
      rcases sound.invariant.getMutableRep_replaces got with
        ⟨⟨⟩, -⟩ | ⟨rfl, -, strKey, bytes, replaces, text, empty, -⟩
      obtain rfl := empty rfl
      rw [if_neg (by rintro ⟨⟩)] at ends
      have holds : HoldsText middle.store fs.store.nextRep [] := by
        rw [ends.2]
        exact ⟨strKey, replaces.this, text⟩
      cases failed : failures.emptyList with
      | none =>
          rw [failed, Trail.droppedWrite_none] at emptied
          obtain ⟨store, wrote, reached, -, -⟩ := holds.write between emptyListText
          rw [Trail.streamWrite_ok wrote] at emptied
          subst emptied
          refine ⟨_, middle.setStore store, reached, placed, rewrites, fun done => ?_⟩
          simp only [Trail.setEntryUnchecked, bind_ok, Trail.getNodeRevision_ok]
          refine ⟨node, fs, ⟨found, rfl⟩, _, middle, keyed, ?_⟩
          rw [if_pos unnamed]
          exact bind_ok.mpr ⟨(), _, (Trail.streamWrite_ok wrote).mpr rfl, done⟩
      | some error =>
          rw [failed, Trail.droppedWrite_some] at emptied
          cases emptied
          obtain ⟨⟨raw, entries, contents, parsed⟩, -⟩ :=
            Trail.rewriteEntriesFailing_ok between rewrites
          obtain ⟨less, rfl⟩ := Nat.exists_eq_succ_of_ne_zero (repContents_positive contents)
          obtain ⟨serves, sized⟩ := holds.serves less
          rw [repContents, sized] at contents
          dsimp only at contents
          rw [serves] at contents
          cases contents
          cases parsed
  · next named =>
      refine ⟨key, middle, between, placed, ran, fun done => ?_⟩
      simp only [Trail.setEntryUnchecked, bind_ok, Trail.getNodeRevision_ok]
      refine ⟨node, fs, ⟨found, rfl⟩, key, middle, keyed, ?_⟩
      rw [if_neg named]
      exact done

/-- Only a failed write of the new list is not noticed, and then no list can be read any more. -/
theorem Trail.setEntryFailing_ok (sound : Sound lists kinds streams fs)
    (found : fs.node parent = some node) (isDir : node.kind = .dir) {name : Bytes}
    (ran : Trail.setEntryFailing failures depth parent name id fs = .ok ((), next)) :
    (failures.newList = none ∧ ∃ before, DirReads fs parent before ∧
        DirReads next parent (tweakEntry before name (unparseId id))) ∨
      (failures.newList ≠ none ∧ ∀ depth,
        Trail.dirEntriesSkel (depth + 1) parent next = .error SvnError.undefinedBehaviour) := by
  obtain ⟨key, middle, between, placed, rewrites, unchecked⟩ :=
    Trail.setEntryFailing_rewrites sound found ran
  obtain ⟨-, ⟨noticed, done⟩ | ⟨failed, nodes, empty⟩⟩ :=
    Trail.rewriteEntriesFailing_ok between rewrites
  · obtain ⟨lists', key', rep, entries, -, listed, owns, -⟩ :=
      sound.setEntryUnchecked found isDir (unchecked done)
    exact Or.inl ⟨noticed, entries, listed.reads found isDir, owns.listOf.reads owns.keyed isDir⟩
  · refine Or.inr ⟨failed, fun depth => ?_⟩
    have present := (nodes parent).trans placed
    have got : Trail.getNodeRevision parent next = .ok ({ node with dataKey := some key }, next) :=
      Trail.getNodeRevision_ok.mpr ⟨present, rfl⟩
    have entries : Trail.getDirEntries (depth + 1) { node with dataKey := some key } next =
        .error SvnError.undefinedBehaviour := by
      simp only [Trail.getDirEntries, isDir, readStore, withStore, empty depth]
      rfl
    rw [Trail.dirEntriesSkel, bind_run got, bind_run (show ensure _ _ next = .ok ((), next) from
      ensure_ok.mpr ⟨isDir, rfl⟩)]
    exact entries

end SetEntry

namespace Trail

/-- `SVN_FS_WRITE_BUFFER_SIZE`. -/
def writeBufferSize : Nat := 512000

/-- The writes of one call of the consumer. A finalization that fails is undone. -/
structure WindowFailures where
  write : Option SvnError
  finalize : Option SvnError

/-- One call: how its writes fail, and the window. -/
abbrev WindowCall := WindowFailures × Option TxdeltaWindow

/-- The string of the baton has to be purged. -/
def Purges (window : Option TxdeltaWindow) (baton : ApplyBaton) : Prop :=
  window = none ∨ writeBufferSize < baton.target.length

instance (window : Option TxdeltaWindow) (baton : ApplyBaton) : Decidable (Purges window baton) :=
  inferInstanceAs (Decidable (_ ∨ _))

/-- Each write to the stream is a trail of its own. -/
def writeTarget (failure : Option SvnError) (stream : Stream) (bytes : Bytes) (fs : Filesystem) :
    Filesystem :=
  match droppedWrite failure stream.key bytes fs with
  | .ok (_, next) => next
  | .error _ => fs

/-- The interpreter writes to the string of the baton, which is kept as its target. -/
def windowConsumer (stream : Stream) (state : Filesystem × ApplyBaton) (call : WindowCall) :
    Except SvnError (Filesystem × ApplyBaton) :=
  match applyWindow state.2 call.2 with
  | (_, some error) => .error error
  | (baton, none) =>
      let (fs, baton) :=
        if Purges call.2 baton then
          (writeTarget call.1.write stream baton.target state.1, { baton with target := [] })
        else (state.1, baton)
      if call.2 = none then
        match written call.1.finalize (finalizeEdits stream.node) fs with
        | .ok (_, next) => .ok (next, baton)
        | .error error => .error error
      else .ok (fs, baton)

/-- The calls for all windows of a text, and the last call without a window. -/
def windowCalls (calls : List (WindowFailures × TxdeltaWindow)) (last : WindowFailures) :
    List WindowCall := calls.map (fun call => (call.1, some call.2)) ++ [(last, none)]

/-- The pieces that are written to the stream, and how the writes fail. -/
def purges : ApplyBaton → List WindowCall → List (Option SvnError × Bytes)
  | _, [] => []
  | baton, call :: calls =>
      let next := (applyWindow baton call.2).1
      if Purges call.2 next then
        (call.1.write, next.target) :: purges { next with target := [] } calls
      else purges next calls

end Trail

section Interpreter

variable {baton next : ApplyBaton}

theorem slideSource_retarget (baton : ApplyBaton) (window : TxdeltaWindow) (target : Bytes) :
    slideSource { baton with target := target } window =
      { slideSource baton window with target := target } := by
  unfold slideSource
  split
  · rfl
  · rfl

theorem readSource_retarget (baton : ApplyBaton) (window : TxdeltaWindow) (target : Bytes) :
    readSource { baton with target := target } window =
      ({ (readSource baton window).1 with target := target }, (readSource baton window).2) := by
  unfold readSource
  split
  · dsimp only
    split
    · rfl
    · rfl
  · rfl

theorem readSource_target (baton : ApplyBaton) (window : TxdeltaWindow) :
    (readSource (slideSource baton window) window).1.target = baton.target := by
  have slid : (slideSource baton window).target = baton.target := by
    unfold slideSource
    split
    · rfl
    · rfl
  unfold readSource
  split
  · dsimp only
    split
    · exact slid
    · exact slid
  · exact slid

/-- The interpreter only adds to its target. -/
theorem applyWindow_retarget {window : Option TxdeltaWindow}
    (applied : applyWindow baton window = (next, none)) :
    ∃ piece, next.target = baton.target ++ piece ∧ ∀ target,
      applyWindow { baton with target := target } window =
        ({ next with target := target ++ piece }, none) := by
  unfold applyWindow at applied ⊢
  split at applied
  · cases applied
  · next opened =>
      simp only [if_neg opened]
      cases window with
      | none =>
          cases applied
          exact ⟨[], (List.append_nil _).symm, fun target => by rw [List.append_nil]⟩
      | some window =>
          dsimp only at applied ⊢
          split at applied
          · cases applied
          · next inside =>
              simp only [if_neg inside, slideSource_retarget, readSource_retarget]
              have kept := readSource_target baton window
              cases read : readSource (slideSource baton window) window with
              | mk after error =>
                  rw [read] at applied kept
                  cases error with
                  | some error => cases applied
                  | none =>
                      dsimp only at applied kept ⊢
                      cases built : applyInstructions window after.sbuf with
                      | none =>
                          rw [built] at applied
                          cases applied
                      | some tbuf =>
                          rw [built] at applied
                          cases applied
                          exact ⟨tbuf, by rw [kept], fun target => rfl⟩

/-- The same is true of all windows. -/
theorem consumeAll_retarget (windows : List (Option TxdeltaWindow)) :
    ∀ {baton final : ApplyBaton}, consumeAll applyWindow baton windows = (final, none) →
      ∃ piece, final.target = baton.target ++ piece ∧ ∀ target,
        consumeAll applyWindow { baton with target := target } windows =
          ({ final with target := target ++ piece }, none) := by
  induction windows with
  | nil =>
      intro baton final ran
      cases ran
      exact ⟨[], (List.append_nil _).symm, fun target => by rw [List.append_nil]; rfl⟩
  | cons window windows ih =>
      intro baton final ran
      rw [consumeAll] at ran
      cases applied : applyWindow baton window with
      | mk next error =>
          rw [applied] at ran
          cases error with
          | some error => cases ran
          | none =>
              obtain ⟨first, grown, retarget⟩ := applyWindow_retarget applied
              obtain ⟨rest, grownRest, retargetRest⟩ := ih ran
              refine ⟨first ++ rest, by rw [grownRest, grown, List.append_assoc], fun target => ?_⟩
              rw [consumeAll, retarget]
              dsimp only
              rw [← List.append_assoc]
              exact retargetRest (target ++ first)

end Interpreter

section Consumer

variable {baton final after : ApplyBaton} {last : Trail.WindowFailures}
  {calls : List (Trail.WindowFailures × TxdeltaWindow)}

theorem Trail.windowCalls_cons (call : Trail.WindowFailures × TxdeltaWindow) :
    Trail.windowCalls (call :: calls) last = (call.1, some call.2) :: Trail.windowCalls calls last := rfl

/-- The pieces are the whole text, cut where the string is purged. -/
theorem Trail.purges_text
    (ran : consumeAll applyWindow baton ((Trail.windowCalls calls last).map Prod.snd) = (final, none)) :
    (Trail.purges baton (Trail.windowCalls calls last)).flatMap Prod.snd = final.target := by
  induction calls generalizing baton final with
  | nil =>
      rw [Trail.windowCalls, List.map_nil, List.nil_append, List.map_singleton, consumeAll] at ran
      cases applied : applyWindow baton none with
      | mk next error =>
          rw [applied] at ran
          cases error with
          | some error => cases ran
          | none =>
              cases ran
              simp [Trail.windowCalls, Trail.purges, applied, Trail.Purges]
  | cons call calls ih =>
      rw [Trail.windowCalls_cons, List.map_cons, consumeAll] at ran
      rw [Trail.windowCalls_cons, Trail.purges]
      cases applied : applyWindow baton (some call.2) with
      | mk next error =>
          rw [applied] at ran
          cases error with
          | some error => cases ran
          | none =>
              dsimp only at ran ⊢
              split
              · obtain ⟨piece, grown, retarget⟩ := consumeAll_retarget _ ran
                rw [List.flatMap_cons, ih (retarget []), grown]
                rfl
              · exact ih ran

variable {fs next : Filesystem} {id : NodeId} {node : NodeRev} {key : Nat} {text : Bytes}

/-- The pieces whose writes do not fail. -/
def Trail.keptPieces (pieces : List (Option SvnError × Bytes)) : Bytes :=
  (pieces.filter fun piece => piece.1 = none).flatMap Prod.snd

theorem Trail.keptPieces_cons (failure : Option SvnError) (bytes : Bytes)
    (pieces : List (Option SvnError × Bytes)) :
    Trail.keptPieces ((failure, bytes) :: pieces) =
      (if failure = none then bytes else []) ++ Trail.keptPieces pieces := by
  cases failure with
  | none => rfl
  | some error => rfl

/-- Nothing else is lost. -/
theorem Trail.keptPieces_length (pieces : List (Option SvnError × Bytes)) :
    (Trail.keptPieces pieces).length ≤ (pieces.flatMap Prod.snd).length := by
  induction pieces with
  | nil => exact le_rfl
  | cons piece pieces ih =>
      obtain ⟨failure, bytes⟩ := piece
      rw [Trail.keptPieces_cons, List.flatMap_cons, List.length_append, List.length_append]
      split
      · exact Nat.add_le_add_left ih _
      · rw [List.length_nil]
        omega

theorem Trail.keptPieces_eq_iff (pieces : List (Option SvnError × Bytes)) :
    Trail.keptPieces pieces = pieces.flatMap Prod.snd ↔
      ∀ piece ∈ pieces, piece.1 = none ∨ piece.2 = [] := by
  induction pieces with
  | nil => simp [Trail.keptPieces]
  | cons piece pieces ih =>
      obtain ⟨failure, bytes⟩ := piece
      rw [Trail.keptPieces_cons, List.flatMap_cons, List.forall_mem_cons, ← ih]
      dsimp only
      split
      · next noticed => simp [noticed]
      · next failed =>
          rw [List.nil_append]
          constructor
          · intro same
            have short := Trail.keptPieces_length pieces
            rw [same, List.length_append] at short
            have empty : bytes = [] := List.length_eq_zero_iff.mp (by omega)
            exact ⟨Or.inr empty, by rw [same, empty]; rfl⟩
          · rintro ⟨noticed | empty, same⟩
            · exact absurd noticed failed
            · rw [same, empty]
              rfl

theorem Editing.writeTarget (editing : Editing fs id node key text) (failure : Option SvnError)
    (bytes : Bytes) : Editing (Trail.writeTarget failure ⟨id, key⟩ bytes fs) id node key
      (text ++ if failure = none then bytes else []) := by
  cases failure with
  | none =>
      obtain ⟨next, wrote, more, -⟩ := editing.write bytes
      rw [Trail.writeTarget, Trail.droppedWrite_none, wrote]
      exact more
  | some error =>
      rw [Trail.writeTarget, Trail.droppedWrite_some, if_neg (by simp), List.append_nil]
      exact editing

/-- The pieces whose writes succeed are added to the text, and the last call finishes the edit. -/
theorem Editing.consume (editing : Editing fs id node key text)
    (ran : (Trail.windowCalls calls last).foldlM (Trail.windowConsumer ⟨id, key⟩) (fs, baton) =
      .ok (next, after)) :
    (∃ final, consumeAll applyWindow baton ((Trail.windowCalls calls last).map Prod.snd) =
      (final, none)) ∧
    Finished next id node key
      (text ++ Trail.keptPieces (Trail.purges baton (Trail.windowCalls calls last))) := by
  induction calls generalizing fs baton text with
  | nil =>
      obtain ⟨⟨last', after'⟩, handled, rest⟩ := bind_eq_ok ran
      cases rest
      rw [Trail.windowConsumer] at handled
      cases applied : applyWindow baton none with
      | mk final error =>
          simp only [applied] at handled
          cases error with
          | some error => cases handled
          | none =>
              refine ⟨⟨final, by simp [Trail.windowCalls, consumeAll, applied]⟩, ?_⟩
              simp only [Trail.Purges, true_or, if_true] at handled
              have wrote := editing.writeTarget last.write final.target
              split at handled
              · next value done finished =>
                  cases handled
                  obtain ⟨-, finalized⟩ := Trail.written_ok.mp finished
                  have ends := (wrote.finalize finalized).1
                  simp only [Trail.windowCalls, List.map_nil, List.nil_append, Trail.purges, applied,
                    Trail.Purges, true_or, if_true, Trail.keptPieces_cons]
                  simpa [Trail.keptPieces] using ends
              · cases handled
  | cons call calls ih =>
      obtain ⟨⟨middle, between⟩, handled, rest⟩ := bind_eq_ok ran
      rw [Trail.windowConsumer] at handled
      rw [Trail.windowCalls_cons, List.map_cons, consumeAll, Trail.purges]
      cases applied : applyWindow baton (some call.2) with
      | mk next error =>
          simp only [applied] at handled
          cases error with
          | some error => cases handled
          | none =>
              dsimp only at handled ⊢
              rw [if_neg (by simp)] at handled
              split at handled
              · next purged =>
                  cases handled
                  obtain ⟨⟨final, consumed⟩, finished⟩ :=
                    ih (editing.writeTarget call.1.write next.target) rest
                  obtain ⟨piece, -, retarget⟩ := consumeAll_retarget _ consumed
                  rw [if_pos purged, Trail.keptPieces_cons, ← List.append_assoc]
                  exact ⟨⟨_, retarget next.target⟩, finished⟩
              · next waits =>
                  cases handled
                  rw [if_neg waits]
                  exact ih editing rest

end Consumer

section Successes

variable {streams : List Trail.Stream} {fs started next : Filesystem}

/-- The stream of a file is open on an empty text. -/
theorem Trail.txnBodyApplyTextdelta_editing (holds : Trail.SoundIn streams fs) {depth : Nat} {root : Root}
    {path : Bytes} {stream : Trail.Stream}
    (opened : Trail.txnBodyApplyTextdelta depth root path fs = .ok (stream, started)) :
    ∃ node, Editing started stream.node node stream.key [] := by
  obtain ⟨before, ⟨kinds, lists, sound⟩, ran⟩ :=
    Trail.txnBodyApplyTextdelta_opens depth root path fs holds stream started opened
  obtain ⟨node, -, -, editing, -⟩ := Editing.start sound.reps
    (fun node old found named => ((sound.fits found).data old named).1) ran
  exact ⟨node, editing⟩

/-- When the calls succeed, the file has the pieces whose writes did not fail. -/
theorem Trail.windowConsumer_reads (holds : Trail.SoundIn streams fs) {depth : Nat} {root : Root}
    {path source : Bytes} {stream : Trail.Stream} {last : Trail.WindowFailures}
    {calls : List (Trail.WindowFailures × TxdeltaWindow)} {baton : ApplyBaton}
    (opened : Trail.txnBodyApplyTextdelta depth root path fs = .ok (stream, started))
    (ran : (Trail.windowCalls calls last).foldlM (Trail.windowConsumer stream)
      (started, txdeltaApply source) = .ok (next, baton)) :
    FileReads next stream.node
        (Trail.keptPieces (Trail.purges (txdeltaApply source) (Trail.windowCalls calls last))) ∧
      (Trail.purges (txdeltaApply source) (Trail.windowCalls calls last)).flatMap Prod.snd =
        (consumeAll applyWindow (txdeltaApply source)
          ((Trail.windowCalls calls last).map Prod.snd)).1.target := by
  obtain ⟨node, editing⟩ := Trail.txnBodyApplyTextdelta_editing holds opened
  obtain ⟨⟨final, consumed⟩, finished⟩ := editing.consume ran
  refine ⟨finished.reads, ?_⟩
  rw [Trail.purges_text consumed, consumed]

end Successes

/-- Behind a success, the list of the directory is complete if and only if the write of the new list
did not fail, and the text of the file if and only if no write of a piece of it did. -/
theorem successes_are_complete_iff {fs : Filesystem} {streams : List Trail.Stream}
    (reachable : FsReachable fs streams) :
    (∀ failures depth parent node name id next, fs.node parent = some node → node.kind = .dir →
      Trail.setEntryFailing failures depth parent name id fs = .ok ((), next) →
      ((∃ before, DirReads fs parent before ∧
          DirReads next parent (tweakEntry before name (unparseId id))) ↔
        failures.newList = none)) ∧
    ∀ depth root path stream started source calls last next baton,
      Trail.txnBodyApplyTextdelta depth root path fs = .ok (stream, started) →
      (Trail.windowCalls calls last).foldlM (Trail.windowConsumer stream)
        (started, txdeltaApply source) = .ok (next, baton) →
      (FileReads next stream.node (consumeAll applyWindow (txdeltaApply source)
          ((Trail.windowCalls calls last).map Prod.snd)).1.target ↔
        ∀ piece ∈ Trail.purges (txdeltaApply source) (Trail.windowCalls calls last),
          piece.1 = none ∨ piece.2 = []) := by
  constructor
  · intro failures depth parent node name id next found isDir ran
    obtain ⟨kinds, lists, sound⟩ := reachable.sound
    rcases Trail.setEntryFailing_ok sound found isDir ran with
      ⟨noticed, complete⟩ | ⟨failed, unreadable⟩
    · exact iff_of_true complete noticed
    · refine iff_of_false ?_ failed
      rintro ⟨before, -, reads⟩
      have read := reads 0
      rw [unreadable] at read
      cases read
  · intro depth root path stream started source calls last next baton opened ran
    obtain ⟨reads, whole⟩ := Trail.windowConsumer_reads reachable.sound opened ran
    rw [← Trail.keptPieces_eq_iff, whole]
    constructor
    · exact reads.unique
    · intro same
      rw [← same]
      exact reads

/-- The file is written in a window of one new byte, and the last write may fail. -/
def writeByte (last : Trail.WindowFailures) : Except SvnError (Trail.Stream × Filesystem) := do
  let (stream, started) ← Trail.txnBodyApplyTextdelta 9 (.txn 0) [97] rootWithFile.1
  let (next, _) ← (Trail.windowCalls [(⟨none, none⟩, ⟨0, 0, 1, [⟨.new, 0, 1⟩], [7], 1⟩)] last).foldlM
    (Trail.windowConsumer stream) (started, txdeltaApply [])
  pure (stream, next)

theorem writeByte_ok {last : Trail.WindowFailures} {stream : Trail.Stream} {next : Filesystem}
    (ran : writeByte last = .ok (stream, next)) : ∃ started baton,
      Trail.txnBodyApplyTextdelta 9 (.txn 0) [97] rootWithFile.1 = .ok (stream, started) ∧
      (Trail.windowCalls [(⟨none, none⟩, ⟨0, 0, 1, [⟨.new, 0, 1⟩], [7], 1⟩)] last).foldlM
        (Trail.windowConsumer stream) (started, txdeltaApply []) = .ok (next, baton) := by
  obtain ⟨⟨stream', started⟩, opened, rest⟩ := bind_eq_ok ran
  obtain ⟨⟨next', baton⟩, consumed, same⟩ := bind_eq_ok rest
  cases same
  exact ⟨started, baton, opened, consumed⟩

theorem successes_are_complete_iff_unfailing :
    (∃ before next, DirReads rootWithFile.1 [0, 1] before ∧
      DirReads next [0, 1] (tweakEntry before [98] (unparseId [1, 1]))) ∧
    ∃ stream next, writeByte ⟨none, none⟩ = .ok (stream, next) ∧ FileReads next stream.node [7] := by
  obtain ⟨entry, contents⟩ := successes_are_complete_iff rootWithFile_reachable
  constructor
  · have found : rootWithFile.1.node [0, 1] = some ⟨.dir, none, none, none, some 0, none⟩ := by
      decide +kernel
    obtain ⟨⟨⟨⟩, next⟩, ran⟩ := exists_ok (show (Trail.setEntryFailing ⟨none, none, none, none, none⟩ 9
      [0, 1] [98] [1, 1] rootWithFile.1).toOption.isSome = true by decide +kernel)
    obtain ⟨before, listed, reads⟩ := (entry _ _ _ _ _ _ next found rfl ran).mpr rfl
    exact ⟨before, next, listed, reads⟩
  · obtain ⟨⟨stream, next⟩, ran⟩ :=
      exists_ok (show (writeByte ⟨none, none⟩).toOption.isSome = true by decide +kernel)
    obtain ⟨started, baton, opened, consumed⟩ := writeByte_ok ran
    refine ⟨stream, next, ran, ?_⟩
    exact (contents 9 (.txn 0) [97] stream started [] _ _ next baton opened consumed).mpr
      (by decide +kernel)

/-- Both functions succeed when a write has failed, and what they should have written is lost. -/
theorem failed_writes_are_not_noticed :
    (∃ next, Trail.setEntryFailing ⟨none, none, none, none, some ⟨.berkeleyDb, ""⟩⟩ 9 [0, 1] [98] [1, 1]
        rootWithFile.1 = .ok ((), next) ∧
      ∀ depth, Trail.dirEntriesSkel (depth + 1) [0, 1] next = .error SvnError.undefinedBehaviour) ∧
    ∃ stream next, writeByte ⟨some ⟨.berkeleyDb, ""⟩, none⟩ = .ok (stream, next) ∧
      FileReads next stream.node [] := by
  have sound := rootWithFile_reachable.sound
  constructor
  · have found : rootWithFile.1.node [0, 1] = some ⟨.dir, none, none, none, some 0, none⟩ := by
      decide +kernel
    obtain ⟨⟨⟨⟩, next⟩, ran⟩ := exists_ok (show (Trail.setEntryFailing
      ⟨none, none, none, none, some ⟨.berkeleyDb, ""⟩⟩ 9 [0, 1] [98] [1, 1]
        rootWithFile.1).toOption.isSome = true by decide +kernel)
    obtain ⟨kinds, lists, holds⟩ := sound
    rcases Trail.setEntryFailing_ok holds found rfl ran with ⟨⟨⟩, -⟩ | ⟨-, unreadable⟩
    exact ⟨next, ran, unreadable⟩
  · obtain ⟨⟨stream, next⟩, ran⟩ := exists_ok (show (writeByte ⟨some ⟨.berkeleyDb, ""⟩, none⟩).toOption.isSome =
      true by decide +kernel)
    obtain ⟨started, baton, opened, consumed⟩ := writeByte_ok ran
    obtain ⟨reads, -⟩ := Trail.windowConsumer_reads sound opened consumed
    exact ⟨stream, next, ran, reads⟩

end Subversion.Fs
