/-
This file shows that the digest of a delta stream is queried before it is calculated.
-/

import Subversion.Fs.RepOps

namespace Subversion.Fs

open Delta

/-- The calls return windows until the first end mark. -/
inductive Ended : TxdeltaStream → TxdeltaStream → Prop where
  | now {stream last : TxdeltaStream} (produced : txdeltaNextWindow stream = .ok (none, last)) :
      Ended stream last
  | later {stream next last : TxdeltaStream} {window : TxdeltaWindow}
      (produced : txdeltaNextWindow stream = .ok (some window, next)) (tail : Ended next last) :
      Ended stream last

/-- One call of an open stream never fails and leaves the digest as it was. -/
theorem txdeltaNextWindow_digest {stream : TxdeltaStream} (more : stream.more = true) :
    ∃ window next, txdeltaNextWindow stream = .ok (window, next) ∧ next.digest = stream.digest ∧
      next.more = window.isSome ∧ next.target = stream.target.drop streamChunkSize ∧
      (window = none ↔ stream.target = []) := by
  unfold txdeltaNextWindow
  rw [if_pos more]
  dsimp only [streamRead]
  have whole : stream.target.take streamChunkSize = [] ↔ stream.target = [] := by
    simp [streamChunkSize]
  split
  · next ended => exact ⟨none, _, rfl, rfl, rfl, rfl, by simp [whole.mp ended]⟩
  · next unfinished =>
      obtain ⟨baton, generated, -⟩ := txdeltaVdelta_emits (stream.saved ++ stream.source.take
        (if stream.saved = [] then streamChunkSize + streamChunkSize / 2 else streamChunkSize))
        (stream.target.take streamChunkSize)
      rw [generated]
      refine ⟨some _, _, rfl, rfl, more, rfl, ?_⟩
      simpa using fun empty => unfinished (whole.mpr empty)

/-- Every open stream comes to its end mark. -/
theorem ended_exists (count : Nat) :
    ∀ stream : TxdeltaStream, stream.target.length ≤ count → stream.more = true →
      ∃ last, Ended stream last := by
  induction count with
  | zero =>
      intro stream short more
      obtain ⟨window, next, produced, -, -, -, ends⟩ := txdeltaNextWindow_digest more
      rw [ends.mpr (List.length_eq_zero_iff.mp (by omega))] at produced
      exact ⟨next, .now produced⟩
  | succ count ih =>
      intro stream short more
      obtain ⟨window, next, produced, -, open_, rest, ends⟩ := txdeltaNextWindow_digest more
      cases window with
      | none => exact ⟨next, .now produced⟩
      | some window =>
          have positive : 0 < stream.target.length :=
            List.length_pos_iff.mpr fun empty => by cases ends.mpr empty
          obtain ⟨last, ended⟩ := ih next (by rw [rest, List.length_drop, streamChunkSize]; omega) open_
          exact ⟨last, .later produced ended⟩

/-- With the first end mark, the stream is at its end and the digest is still unwritten. -/
theorem ended_unwritten {stream last : TxdeltaStream} (ended : Ended stream last)
    (more : stream.more = true) (unwritten : stream.digest = none) :
    last.more = false ∧ last.digest = none := by
  induction ended with
  | now produced =>
      obtain ⟨window, next, call, same, closes, -⟩ := txdeltaNextWindow_digest more
      rw [produced] at call
      cases call
      exact ⟨closes, same.trans unwritten⟩
  | later produced tail ih =>
      obtain ⟨window, next, call, same, closes, -⟩ := txdeltaNextWindow_digest more
      rw [produced] at call
      cases call
      exact ih closes (same.trans unwritten)

theorem md5Digest_unwritten {stream last : TxdeltaStream} (ended : Ended stream last)
    (more : stream.more = true) (unwritten : stream.digest = none) (md5 : Bytes → Digest)
    (memory : Digest) : txdeltaMd5Digest md5 memory last = some memory := by
  obtain ⟨closed, none⟩ := ended_unwritten ended more unwritten
  simp [txdeltaMd5Digest, closed, none]

theorem deltifyWindow_stream {state next : DeltifyState} {window : Option TxdeltaWindow}
    (ran : deltifyWindow state = .ok (window, next)) :
    txdeltaNextWindow state.stream = .ok (window, next.stream) := by
  unfold deltifyWindow at ran
  split at ran
  · cases ran
  · next produced =>
      split at ran
      · cases ran
      · split at ran
        · cases ran
        · split at ran <;> cases ran <;> exact produced

/-- The loop of `svn_fs__rep_deltify` stops with the first end mark. -/
theorem deltifyWindows_ended (fuel : Nat) {state written : DeltifyState}
    (ran : deltifyWindows fuel state = .ok written) : Ended state.stream written.stream := by
  induction fuel generalizing state with
  | zero => cases ran
  | succ fuel ih =>
      rw [deltifyWindows] at ran
      split at ran
      · cases ran
      · next last step =>
          cases ran
          exact .now (deltifyWindow_stream step)
      · next window next step => exact .later (deltifyWindow_stream step) (ih ran)

instance : Nontrivial Digest := ⟨Vector.replicate 16 0, Vector.replicate 16 1, by decide⟩

/-- Some contents of the memory make the query return another digest. -/
theorem md5Digest_differs (md5 : Bytes → Digest) (source target : Bytes) (digest : Digest) :
    ¬ ∀ memory last, Ended (txdelta source target) last →
      txdeltaMd5Digest md5 memory last = some digest := by
  intro promised
  obtain ⟨last, ended⟩ := ended_exists target.length (txdelta source target) le_rfl rfl
  obtain ⟨memory, other⟩ := exists_ne digest
  have queried := promised memory last ended
  rw [md5Digest_unwritten ended rfl rfl] at queried
  exact other (Option.some.inj queried)

/-- The query returns what the memory held before, so it is the digest of no text. -/
theorem md5_digest_is_uninitialized (md5 : Bytes → Digest) (source target : Bytes) :
    (¬ ∀ memory last, Ended (txdelta source target) last →
      txdeltaMd5Digest md5 memory last = some (md5 target)) ∧
    ∀ fuel strings written,
      deltifyWindows fuel ⟨txdelta source target, false, 0, strings, [], 0, 0⟩ = .ok written →
      ¬ ∃ digest, ∀ memory, txdeltaMd5Digest md5 memory written.stream = some digest := by
  refine ⟨?_, ?_⟩
  · exact md5Digest_differs md5 source target (md5 target)
  · intro fuel strings written ran
    rintro ⟨digest, fixed⟩
    obtain ⟨memory, other⟩ := exists_ne digest
    have queried := fixed memory
    rw [md5Digest_unwritten (deltifyWindows_ended fuel ran) rfl rfl] at queried
    exact other (Option.some.inj queried)

/-- No hash function gives the digest that is queried for a text of one byte. -/
theorem digest_of_one_byte_is_not_calculated :
    ¬ ∃ md5 : Bytes → Digest, ∀ memory last, Ended (txdelta [] [97]) last →
      txdeltaMd5Digest md5 memory last = some (md5 [97]) := by
  rintro ⟨md5, promised⟩
  exact md5Digest_differs md5 [] [97] (md5 [97]) promised

end Subversion.Fs
