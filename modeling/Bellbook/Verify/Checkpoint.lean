import Bellbook.Verify.Specification

/-!
# Resuming from a trusted checkpoint

A trusted checkpoint can only be had from a verified log, so resuming from it is replaying that log:
the concatenated ids bind the prefix, the unchecked rebuild is the state the replay of the prefix
ends with, and an accepted log cannot be cut inside a pair.
-/

namespace Bellbook

open Std

variable {P : Platform} {rules : VerifierRules} {pre L : List Record} {s : State}

/-- The byte strings hashed for a checkpoint of `pre` and a log resumed from it: the canonical id
forms, and the concatenated ids of both prefixes. -/
def Platform.checkpointBytes (P : Platform) (pre L : List Record) : List Bytes :=
  (pre ++ L).filterMap P.canonicalIdForm ++
    [(pre.map Record.id).flatMap hashBytes, ((L.take pre.length).map Record.id).flatMap hashBytes]

theorem checkpointBytes_append : P.checkpointBytes pre (pre ++ L) ⊆
    (pre ++ L).filterMap P.canonicalIdForm ++ [(pre.map Record.id).flatMap hashBytes] := by
  intro bytes h
  rw [Platform.checkpointBytes, List.take_left] at h
  rcases List.mem_append.mp h with h | h
  · obtain ⟨r, hr, hform⟩ := List.mem_filterMap.mp h
    refine List.mem_append_left _ (List.mem_filterMap.mpr ⟨r, ?_, hform⟩)
    exact (List.mem_append.mp hr).elim (List.mem_append_left _) id
  · refine List.mem_append_right _ ?_
    simpa using h

/-- What `from_verified_log` puts into a checkpoint. -/
theorem fromVerifiedLog_eq_some {tc : TrustedCheckpoint}
    (h : P.fromVerifiedLog rules pre = some tc) :
    ∃ s stateHash, Verified P rules pre s ∧ P.sha256Canonical s = some stateHash ∧
      P.sha256Canonical rules = some tc.rulesHash ∧
      tc.checkpoint =
        { logLength := pre.length
          lastTime := lastTime pre
          lastRecordId := lastRecordId pre
          stateHash
          logHash := P.sha256ConcatIds (pre.map Record.id) } := by
  unfold Platform.fromVerifiedLog at h
  split at h
  · cases h
  next hacc =>
  rw [not_not] at hacc
  obtain ⟨s, hv⟩ := accepts_iff.mp hacc
  rw [hv.run.build] at h
  simp only [Option.bind_eq_bind, Option.bind_some, Platform.createCheckpoint] at h
  obtain ⟨cp, hcp, h⟩ := Option.bind_eq_some_iff.mp h
  obtain ⟨stateHash, hstate, hcp⟩ := Option.bind_eq_some_iff.mp hcp
  obtain ⟨rulesHash, hrules, h⟩ := Option.bind_eq_some_iff.mp h
  cases h
  cases hcp
  exact ⟨s, stateHash, hv, hstate, hrules, rfl⟩

/-- Every verified log whose state and rules have a canonical text can be checkpointed. -/
theorem fromVerifiedLog_isSome (h : P.Accepts rules pre)
    (hstate : ((P.buildStateUnchecked pre).bind P.canonicalJson).isSome = true)
    (hrules : (P.canonicalJson rules).isSome = true) :
    ∃ tc, P.fromVerifiedLog rules pre = some tc := by
  obtain ⟨text, htext⟩ := Option.isSome_iff_exists.mp hstate
  obtain ⟨s, hbuild, hs⟩ := Option.bind_eq_some_iff.mp htext
  obtain ⟨text', hr⟩ := Option.isSome_iff_exists.mp hrules
  have hacc : (P.verifyLog rules pre none).result = .accept := h
  rw [← Option.isSome_iff_exists, Platform.fromVerifiedLog, if_neg (not_not.mpr hacc)]
  simp [hbuild, Platform.createCheckpoint, Platform.sha256Canonical, hs, hr]

/-- The record after an accepted prefix of an accepted log is a subject. -/
theorem Replays.next_subject {s' : State} (h : Replays P rules pre s)
    (h' : Replays P rules (pre ++ L) s') :
    ((pre ++ L)[pre.length]?).any (fun r => r.kind = .verdict) = false := by
  match L with
  | [] => simp
  | [r] =>
    obtain ⟨j, hj⟩ := h.even
    obtain ⟨k, hk⟩ := h'.even
    simp at hk
    omega
  | r :: v :: rest =>
    obtain ⟨t, hstep, -⟩ := h.mid h'
    simp [hstep.subject]

/-- The checkpoint section passes on a log that extends the verified one. -/
theorem resume_eq_ok {tc : TrustedCheckpoint} (h : P.fromVerifiedLog rules pre = some tc)
    (hv : Verified P rules pre s) (hnext : ((pre ++ L)[pre.length]?).any
      (fun r => r.kind = .verdict) = false) :
    P.resume rules (pre ++ L) tc = .ok (s, PriorIndex.of pre) := by
  obtain ⟨t, stateHash, ht, hstate, hrules, hcp⟩ := fromVerifiedLog_eq_some h
  cases hv.run.unique ht.run
  unfold Platform.resume
  simp only [hcp, List.take_left, hrules, ne_eq, not_true_eq_false, if_false, hnext,
    List.length_append, Bool.false_eq_true, hv.run.build, hstate, or_self]
  rw [if_neg (by omega)]

/-- A log the checkpoint section passes on has the ids of the verified log in front, and no verdict
after them. -/
theorem of_resume_eq_ok {tc : TrustedCheckpoint} {p : State × PriorIndex}
    (h : P.fromVerifiedLog rules pre = some tc) (hr : P.resume rules L tc = .ok p) :
    P.sha256ConcatIds ((L.take pre.length).map Record.id) =
        P.sha256ConcatIds (pre.map Record.id) ∧
      (L[pre.length]?).any (fun r => r.kind = .verdict) = false := by
  obtain ⟨t, stateHash, -, -, -, hcp⟩ := fromVerifiedLog_eq_some h
  unfold Platform.resume at hr
  simp only [hcp] at hr
  split at hr
  · cases hr
  split at hr
  · cases hr
  split at hr
  · cases hr
  next hhash =>
  split at hr
  · cases hr
  next hnext =>
  exact ⟨not_not.mp hhash, by simpa using hnext⟩

theorem eq_of_ids_eq {strings : List Bytes} (h : P.CollisionFree strings) {M : List Record}
    (hL : ∀ r ∈ L, P.computeId r = some r.id) (hM : ∀ r ∈ M, P.computeId r = some r.id)
    (hforms : ∀ r ∈ L ++ M, ∀ form, P.canonicalIdForm r = some form → form ∈ strings)
    (hids : L.map Record.id = M.map Record.id) : L = M := by
  have hlen : L.length = M.length := by simpa using congrArg List.length hids
  refine List.ext_getElem hlen fun i hi hi' => ?_
  refine eq_of_id_eq_of_collisionFree h (hforms _ (by simp)) (hforms _ (by simp))
    (hL _ (List.getElem_mem _)) (hM _ (List.getElem_mem _)) ?_
  have := congrArg (fun l => l[i]?) hids
  simpa [hi, hi'] using this

/-- Where the checkpoint section passes, the verified log is a prefix, if the ids are computed. -/
theorem prefix_of_resume {tc : TrustedCheckpoint} {p : State × PriorIndex}
    (h : P.fromVerifiedLog rules pre = some tc) (hr : P.resume rules L tc = .ok p)
    (hids : ∀ r ∈ L, P.computeId r = some r.id)
    (hs : P.CollisionFree (P.checkpointBytes pre L)) : pre <+: L := by
  obtain ⟨s, -, hv, -⟩ := fromVerifiedLog_eq_some h
  obtain ⟨hhash, -⟩ := of_resume_eq_ok h hr
  have hconcat := hs _ (List.mem_append_right _ (by simp)) _ (List.mem_append_right _ (by simp))
    hhash
  have heq : L.take pre.length = pre := by
    refine eq_of_ids_eq hs (fun r hr => hids r (List.mem_of_mem_take hr)) hv.ids
      (fun r hr form hform => List.mem_append_left _ (List.mem_filterMap.mpr ⟨r, ?_, hform⟩))
      (flatMap_hashBytes_inj hconcat)
    rcases List.mem_append.mp hr with hr | hr
    · exact List.mem_append_right _ (List.mem_of_mem_take hr)
    · exact List.mem_append_left _ hr
  exact heq ▸ List.take_prefix _ _

/-- Replay from the checkpoint of a verified log ends as replay from the start does. -/
theorem replayLog_some_eq_ok {tc : TrustedCheckpoint} (h : P.fromVerifiedLog rules pre = some tc)
    (hs : P.CollisionFree (P.checkpointBytes pre L)) {st : ReplayState} :
    P.replayLog rules L (some tc) = .ok st ↔
      pre <+: L ∧ Verified P rules L st.state ∧ st.index = PriorIndex.of L ∧
        st.checked = L.length - pre.length := by
  obtain ⟨s, stateHash, hv, -, -, hcp⟩ := fromVerifiedLog_eq_some h
  have hn : tc.checkpoint.logLength = pre.length := by rw [hcp]
  have hresume {rest : List Record} (hnext : ((pre ++ rest)[pre.length]?).any
      (fun r => r.kind = .verdict) = false) : P.replayLog rules (pre ++ rest) (some tc) = .ok st ↔
      Verified P rules (pre ++ rest) st.state ∧ st.index = PriorIndex.of (pre ++ rest) ∧
        st.checked = rest.length := by
    simp only [Platform.replayLog, resume_eq_ok h hv hnext, hn]
    exact replayFrom_append_eq_ok hv.run
  constructor
  · intro hok
    cases hr : P.resume rules L tc with
    | error e => simp [Platform.replayLog, hr] at hok
    | ok p =>
      have hids : ∀ r ∈ L, P.computeId r = some r.id := by
        simp only [Platform.replayLog, hr] at hok
        exact (replayFrom_eq_ok.mp hok).2.2.1
      have hpre := prefix_of_resume h hr hids hs
      obtain ⟨rest, rfl⟩ := hpre
      obtain ⟨hL, hi, hc⟩ := (hresume (of_resume_eq_ok h hr).2).mp hok
      exact ⟨⟨rest, rfl⟩, hL, hi, by simp [hc]⟩
  · rintro ⟨⟨rest, rfl⟩, hL, hi, hc⟩
    exact (hresume (hv.run.next_subject hL.run)).mpr ⟨hL, hi, by simpa using hc⟩

/-- **Checkpointed replay is replay from the start.** With a checkpoint of a verified log, a log is
accepted exactly when it extends the verified one and is accepted without the checkpoint; the two
reports then agree. -/
theorem verifyLog_checkpoint_iff {tc : TrustedCheckpoint}
    (h : P.fromVerifiedLog rules pre = some tc) (hs : P.CollisionFree (P.checkpointBytes pre L)) :
    ((P.verifyLog rules L (some tc)).result = .accept ↔ pre <+: L ∧ P.Accepts rules L) ∧
      ((P.verifyLog rules L (some tc)).result = .accept → P.Accepts rules L →
        (P.verifyLog rules L (some tc)).lastTime = (P.verifyLog rules L none).lastTime ∧
        (P.verifyLog rules L (some tc)).retractedRecords =
          (P.verifyLog rules L none).retractedRecords ∧
        (P.verifyLog rules L (some tc)).taintedRecords =
          (P.verifyLog rules L none).taintedRecords ∧
        (P.verifyLog rules L (some tc)).standing = (P.verifyLog rules L none).standing) := by
  cases hr : P.replayLog rules L (some tc) with
  | error e =>
    have hreject : (P.verifyLog rules L (some tc)).result = .reject := by
      simp [Platform.verifyLog, hr, rejectLog]
    refine ⟨?_, fun hacc => ?_⟩
    · simp only [hreject, reduceCtorEq, false_iff]
      rintro ⟨hpre, hacc⟩
      obtain ⟨s, hv⟩ := accepts_iff.mp hacc
      have hok : P.replayLog rules L (some tc) =
          .ok ⟨s, PriorIndex.of L, L.length - pre.length⟩ :=
        (replayLog_some_eq_ok h hs).mpr ⟨hpre, hv, rfl, rfl⟩
      rw [hr] at hok
      cases hok
    · rw [hreject] at hacc
      cases hacc
  | ok st =>
    obtain ⟨hpre, hv, -⟩ := (replayLog_some_eq_ok h hs).mp hr
    refine ⟨?_, fun _ _ => ?_⟩
    · simpa [Platform.verifyLog, hr] using ⟨hpre, accepts_iff.mpr ⟨_, hv⟩⟩
    · rw [hv.verifyLog_eq]
      simp [Platform.verifyLog, hr]

/-- The sample log, resumed after its first pair. -/
theorem sampleLog_resumes : ∃ tc, reference.fromVerifiedLog sampleRules sampleRound = some tc ∧
    (reference.verifyLog sampleRules sampleLog (some tc)).result = .accept := by
  obtain ⟨tc, htc⟩ := fromVerifiedLog_isSome sampleRound_accepts (by decide +kernel)
    (by decide +kernel)
  obtain ⟨s, hv⟩ := accepts_iff.mp sampleLog_accepts
  have hfree : reference.CollisionFree (sampleLog.filterMap reference.canonicalIdForm ++
      [(sampleRound.map Record.id).flatMap hashBytes]) := by
    refine collisionFree_of_nodup ?_
    rw [List.map_append, map_sha256_forms hv.ids]
    decide +kernel
  exact ⟨tc, htc, (verifyLog_checkpoint_iff htc (hfree.mono checkpointBytes_append)).1.mpr
    ⟨⟨_, rfl⟩, sampleLog_accepts⟩⟩

end Bellbook
