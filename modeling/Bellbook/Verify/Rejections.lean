import Bellbook.Verify.Checkpoint
import Mathlib.Order.Bounds.Basic

/-!
# What a rejection says

`verify_log` returns at the first check that fails, from a dozen places, and reports a reason and a
count. The reverse reading of that report is a relation:

* `Refused` lists the ways the round after a run fails, each with its reason. There are six; the
  two other returns of the loop, for a payload that does not decode and a fold that fails, are out
  of reach.
* `RejectedFor` adds the passes over the whole log, and is what a rejection means
  (`rejections_exact`): the count is the length of the longest prefix that verifies.
* Resumed from a checkpoint, the replay stops in the same place for the same reason, and counts from
  the checkpoint on (`resumed_rejections`).
-/

namespace Bellbook

section

variable (P : Platform) (rules : VerifierRules)

/-- The passes over the whole log, made before any record is replayed. -/
structure Screened (L : List Record) : Prop where
  times : timesConsecutive L = true
  start : startsAtOne L = true
  ids : ∀ r ∈ L, P.computeId r = some r.id

/-- After the run of `L`, which ends in `s`, the next round fails on the records that are left, for
the reason. -/
inductive Refused (L : List Record) (s : State) : List Record → ReasonCode → Prop
  | stray {v : Record} {rest : List Record} {reason : ReasonCode} :
      v.kind = .verdict → P.checkVerdictRecord rules (priorView L) v = some reason →
      Refused L s (v :: rest) reason
  | unpaired {r : Record} : r.kind ≠ .verdict → Refused L s [r] .invalidPayload
  | unanswered {r next : Record} {rest : List Record} :
      r.kind ≠ .verdict → next.kind ≠ .verdict → Refused L s (r :: next :: rest) .invalidPayload
  | envelope {r v : Record} {rest : List Record} {reason : ReasonCode} :
      r.kind ≠ .verdict → v.kind = .verdict →
      P.checkVerdictRecord rules (priorView (L ++ [r])) v = some reason →
      Refused L s (r :: v :: rest) reason
  | redirected {r v : Record} {rest : List Record} :
      r.kind ≠ .verdict → v.kind = .verdict →
      P.checkVerdictRecord rules (priorView (L ++ [r])) v = none →
      v.refs.head?.map Ref.target ≠ some r.id → Refused L s (r :: v :: rest) .invalidPayload
  -- the reason is the verifier's own; a stored rejection of a good record has none to name
  | misjudged {r v : Record} {rest : List Record} {stored : VerdictData} :
      r.kind ≠ .verdict → v.kind = .verdict →
      P.checkVerdictRecord rules (priorView (L ++ [r])) v = none →
      v.refs.head?.map Ref.target = some r.id → P.decode VerdictData v.data = some stored →
      stored ≠ verdictOf (P.checkRecord rules (priorView (L ++ [r])) s r) →
      Refused L s (r :: v :: rest)
        ((P.checkRecord rules (priorView (L ++ [r])) s r).getD .invalidPayload)

/-- Why `verify_log` rejects the log, and how far it gets. -/
inductive RejectedFor (L : List Record) : Rejection → Prop
  | screen : ¬Screened P L → RejectedFor L ⟨.invalidPayload, 0⟩
  | round {done todo : List Record} {s : State} {reason : ReasonCode} :
      Screened P L → L = done ++ todo → Replays P rules done s →
      Refused P rules done s todo reason → RejectedFor L ⟨reason, done.length⟩

end

variable {P : Platform} {rules : VerifierRules} {L rest : List Record} {s : State}

/-! ## The passes over the log -/

theorem verified_iff : Verified P rules L s ↔ Screened P L ∧ Replays P rules L s :=
  ⟨fun h => ⟨⟨h.times, h.start, h.ids⟩, h.run⟩, fun ⟨hscreen, hrun⟩ =>
    ⟨hscreen.times, hscreen.start, hscreen.ids, hrun⟩⟩

theorem Screened.restrict {M : List Record} (h : Screened P L) (hM : M <+: L) : Screened P M := by
  have htimes := times_iff.mp ⟨h.times, h.start⟩
  have hM' : timesConsecutive M = true ∧ startsAtOne M = true := by
    apply times_iff.mpr
    intro i hi
    rw [hM.getElem hi]
    exact htimes i (hi.trans_le hM.length_le)
  exact ⟨hM'.1, hM'.2, fun r hr => h.ids r (hM.subset hr)⟩

/-- Where the passes fail nothing is replayed; where they succeed the loop decides. -/
theorem replayFrom_eq_error {start : Nat} {index : PriorIndex} {e : Rejection} :
    P.replayFrom rules L start s index = .error e ↔
      (¬Screened P L ∧ e = ⟨.invalidPayload, 0⟩) ∨
        (Screened P L ∧ P.replayLoop rules L start (L.drop start) ⟨s, index, 0⟩ = .error e) := by
  unfold Platform.replayFrom
  by_cases hscreen : Screened P L
  · have hids : L.all (fun r => P.computeId r = some r.id) = true := by simpa using hscreen.ids
    simp [hscreen, hscreen.times, hscreen.start, hids]
  · simp only [hscreen, not_false_eq_true, true_and, false_and, or_false]
    split
    · rw [Except.error.injEq, eq_comm]
    next htimes =>
    split
    · rw [Except.error.injEq, eq_comm]
    next hstart =>
    split
    · rw [Except.error.injEq, eq_comm]
    next hids =>
    exact absurd ⟨by simpa using htimes, by simpa using hstart, by simpa using hids⟩ hscreen

/-! ## A round that fails -/

theorem PairStep.not_refused {s' : State} {r v : Record} {reason : ReasonCode}
    (h : PairStep P rules L s r v s') : ¬Refused P rules L s (r :: v :: rest) reason := by
  intro hf
  cases hf with
  | stray hk _ => exact h.subject hk
  | unanswered _ hk => exact hk h.verdict
  | envelope _ _ henv => simp [h.envelope] at henv
  | redirected _ _ _ hcause => exact hcause h.cause
  | misjudged _ _ _ _ hd hne =>
    rw [h.judged, Option.some.injEq] at hd
    exact hne hd.symm

/-- A round that fails ends the longest run: no prefix of the log that replays is longer. -/
theorem Refused.longest {reason : ReasonCode} (hf : Refused P rules L s rest reason)
    (h : Replays P rules L s) {M : List Record} {t : State} (hM : Replays P rules M t)
    (hpre : M <+: L ++ rest) : M.length ≤ L.length := by
  by_contra hlt
  obtain ⟨more, rfl⟩ := List.prefix_of_prefix_length_le (List.prefix_append L rest) hpre (by omega)
  obtain ⟨tail, htail⟩ := hpre
  rw [List.append_assoc, List.append_cancel_left_eq] at htail
  obtain ⟨j, hj⟩ := h.even
  obtain ⟨k, hk⟩ := hM.even
  match more with
  | [] => simp at hlt
  | [r] => simp at hk; omega
  | r :: v :: more =>
    obtain ⟨t', hstep, -⟩ := h.mid hM
    subst htail
    exact hstep.not_refused hf

/-- The reason is determined. -/
theorem Refused.unique {reason reason' : ReasonCode} (h : Refused P rules L s rest reason)
    (h' : Refused P rules L s rest reason') : reason = reason' := by
  cases h <;> cases h' <;> simp_all

/-- What a verdict is refused for when it follows no subject. -/
theorem replayLone_eq_error (h : Replays P rules L s) {c : Nat} {v : Record} {e : Rejection}
    (hv : v.kind = .verdict)
    (he : P.replayLone rules (L ++ v :: rest) L.length ⟨s, PriorIndex.of L, c⟩ v = .error e) :
    Refused P rules L s (v :: rest) e.reason ∧ e.checked = c := by
  obtain ⟨reason, hreason⟩ := h.verdict_refused v
  unfold Platform.replayLone at he
  simp only [PriorIndex.view_of, hreason] at he
  cases he
  exact ⟨.stray hv hreason, rfl⟩

section Fold

variable (hfrozen : P.Frozen rules) (hdist : P.SchemasDistinct)
include hfrozen hdist

/-- What a pair is refused for. A verdict whose envelope is valid decodes, and a subject that was
judged folds, so two of the returns are never taken. -/
theorem replayPair_eq_error {c : Nat} {r v : Record} {e : Rejection} (hr : r.kind ≠ .verdict)
    (he : P.replayPair rules (L ++ r :: v :: rest) L.length ⟨s, PriorIndex.of L, c⟩ r v = .error e) :
    Refused P rules L s (r :: v :: rest) e.reason ∧ e.checked = c := by
  have hindex : (PriorIndex.of L).insert L.length r = PriorIndex.of (L ++ [r]) :=
    (PriorIndex.of_concat L r).symm
  have hview : (PriorIndex.of (L ++ [r])).view (L ++ r :: v :: rest) = priorView (L ++ [r]) := by
    rw [show L ++ r :: v :: rest = (L ++ [r]) ++ (v :: rest) by simp, PriorIndex.view_of]
  unfold Platform.replayPair at he
  simp only [hindex, hview] at he
  split at he
  · next hv =>
    cases he
    exact ⟨.unanswered hr hv, rfl⟩
  next hv =>
  rw [not_not] at hv
  split at he
  · next reason henv =>
    cases he
    exact ⟨.envelope hr hv henv, rfl⟩
  next henv =>
  split at he
  · next hcause =>
    cases he
    exact ⟨.redirected hr hv henv hcause, rfl⟩
  next hcause =>
  rw [ne_eq, not_not] at hcause
  split at he
  · next hd =>
    obtain ⟨_, _, -, hvalid, -⟩ := Platform.checkVerdictRecord_eq_none.mp henv
    obtain ⟨_, hd', -⟩ := decode_of_decodesCanonically hvalid.data
    rw [hd] at hd'
    cases hd'
  next stored hd =>
  split at he
  · next hne =>
    cases he
    refine ⟨?_, rfl⟩
    have hstored : stored ≠ verdictOf (P.checkRecord rules (priorView (L ++ [r])) s r) := by
      rintro rfl
      simp at hne
    have hreason : (verdictOf (P.checkRecord rules (priorView (L ++ [r])) s r)).reason =
        P.checkRecord rules (priorView (L ++ [r])) s r := by
      cases P.checkRecord rules (priorView (L ++ [r])) s r <;> rfl
    rw [hreason]
    exact .misjudged hr hv henv hcause hd hstored
  next heq =>
  split at he
  · next hfold =>
    push Not at heq
    obtain ⟨t, ht⟩ := applyRecord_of_recomputed hfrozen hdist hr (verdictData_eq_iff.mpr heq)
    rw [ht] at hfold
    cases hfold
  · cases he

/-- Started after a run, the loop stops where a longer run is refused. -/
theorem replayLoop_error (h : Replays P rules L s) {c : Nat} {e : Rejection}
    (he : P.replayLoop rules (L ++ rest) L.length rest ⟨s, PriorIndex.of L, c⟩ = .error e) :
    ∃ done todo t, rest = done ++ todo ∧ Replays P rules (L ++ done) t ∧
      Refused P rules (L ++ done) t todo e.reason ∧ e.checked = c + done.length := by
  -- two records a round
  induction hn : rest.length using Nat.strong_induction_on generalizing L s c rest with
  | _ n ih =>
  subst hn
  have here (hf : Refused P rules L s rest e.reason ∧ e.checked = c) :
      ∃ done todo t, rest = done ++ todo ∧ Replays P rules (L ++ done) t ∧
        Refused P rules (L ++ done) t todo e.reason ∧ e.checked = c + done.length :=
    ⟨[], rest, s, rfl, by simpa using h, by simpa using hf.1, by simpa using hf.2⟩
  match rest with
  | [] => simp [Platform.replayLoop] at he
  | [r] =>
    rw [Platform.replayLoop.eq_def] at he
    simp only at he
    split at he
    · next hk =>
      split at he
      · next e' hlone =>
        cases he
        exact here (replayLone_eq_error h hk hlone)
      · next hlone =>
        obtain ⟨e', hlone'⟩ := replayLone_error h [r] c r
        rw [hlone] at hlone'
        cases hlone'
    · next hk =>
      cases he
      exact here ⟨.unpaired hk, rfl⟩
  | r :: v :: rest =>
    rw [Platform.replayLoop.eq_def] at he
    simp only at he
    split at he
    · next hk =>
      split at he
      · next e' hlone =>
        cases he
        exact here (replayLone_eq_error h hk hlone)
      · next hlone =>
        obtain ⟨e', hlone'⟩ := replayLone_error h (r :: v :: rest) c r
        rw [hlone] at hlone'
        cases hlone'
    · next hk =>
      split at he
      · next e' hpair =>
        cases he
        exact here (replayPair_eq_error hfrozen hdist hk hpair)
      · next st hpair =>
        obtain ⟨hstep, hi, hc⟩ := (replayPair_eq_ok hk).mp hpair
        obtain ⟨t, index, c'⟩ := st
        simp only at hstep hi hc
        subst hi hc
        rw [show L ++ r :: v :: rest = (L ++ [r, v]) ++ rest by simp,
          show L.length + 2 = (L ++ [r, v]).length by simp] at he
        obtain ⟨done, todo, t', rfl, hrun, hf, hchecked⟩ :=
          ih rest.length (by simp only [List.length_cons]; omega) (h.snoc hstep) he rfl
        refine ⟨r :: v :: done, todo, t', rfl, by simpa using hrun, by simpa using hf, ?_⟩
        rw [hchecked, List.length_cons, List.length_cons]
        omega

/-- **The loop stops exactly there**, whatever run it is started after. -/
theorem replayLoop_eq_error (h : Replays P rules L s) (rest : List Record) {c : Nat}
    {e : Rejection} :
    P.replayLoop rules (L ++ rest) L.length rest ⟨s, PriorIndex.of L, c⟩ = .error e ↔
      ∃ done todo t, rest = done ++ todo ∧ Replays P rules (L ++ done) t ∧
        Refused P rules (L ++ done) t todo e.reason ∧ e.checked = c + done.length := by
  refine ⟨replayLoop_error hfrozen hdist h, ?_⟩
  rintro ⟨done, todo, t, rfl, hrun, hf, hchecked⟩
  have hlog : L ++ done ++ todo = L ++ (done ++ todo) := List.append_assoc L done todo
  cases hloop : P.replayLoop rules (L ++ (done ++ todo)) L.length (done ++ todo)
      ⟨s, PriorIndex.of L, c⟩ with
  | ok st =>
    -- then the whole log replays, and nothing is left to refuse
    have hall := ((replayLoop_eq_ok h).mp hloop).1
    have hlen := hf.longest hrun hall (hlog ▸ List.prefix_rfl)
    have htodo : todo = [] := List.eq_nil_of_length_eq_zero (by simp only [List.length_append] at hlen; omega)
    subst htodo
    cases hf
  | error e' =>
    obtain ⟨done', todo', t', hrest, hrun', hf', hchecked'⟩ :=
      replayLoop_error hfrozen hdist h hloop
    have hlog' : L ++ done' ++ todo' = L ++ (done ++ todo) := by rw [hrest, List.append_assoc]
    -- both runs are the longest one
    have hle := hf.longest hrun hrun' (by rw [hlog, ← hlog']; exact List.prefix_append _ _)
    have hge := hf'.longest hrun' hrun (by rw [hlog', ← hlog]; exact List.prefix_append _ _)
    obtain ⟨rfl, rfl⟩ := List.append_inj hrest (by simp only [List.length_append] at hle hge; omega)
    cases hrun.unique hrun'
    obtain ⟨reason, checked⟩ := e
    obtain ⟨reason', checked'⟩ := e'
    cases hf.unique hf'
    cases hchecked.trans hchecked'.symm
    rfl

/-! ## Reports -/

theorem replayLog_none_eq_error {e : Rejection} :
    P.replayLog rules L none = .error e ↔ RejectedFor P rules L e := by
  rw [Platform.replayLog, replayFrom_eq_error, List.drop_zero]
  have hloop := replayLoop_eq_error hfrozen hdist Replays.nil L (c := 0) (e := e)
  rw [List.nil_append, List.length_nil] at hloop
  constructor
  · rintro (⟨hscreen, rfl⟩ | ⟨hscreen, he⟩)
    · exact .screen hscreen
    · obtain ⟨done, todo, s, hL, hrun, hf, hchecked⟩ := hloop.mp he
      obtain ⟨reason, checked⟩ := e
      rw [Nat.zero_add] at hchecked
      subst hchecked
      exact .round hscreen hL (by simpa using hrun) (by simpa using hf)
  · intro h
    cases h with
    | screen hscreen => exact .inl ⟨hscreen, rfl⟩
    | round hscreen hL hrun hf =>
      exact .inr ⟨hscreen, hloop.mpr ⟨_, _, _, hL, by simpa using hrun, by simpa using hf, by simp⟩⟩

end Fold

theorem rejectLog_inj {e e' : Rejection} : rejectLog e L = rejectLog e' L ↔ e = e' := by
  constructor
  · intro h
    obtain ⟨reason, checked⟩ := e
    obtain ⟨reason', checked'⟩ := e'
    injection h with _ hreason hchecked
    cases hreason
    cases hchecked
    rfl
  · rintro rfl
    rfl

/-- The report of a rejection is that of the early return. -/
theorem verifyLog_eq_rejectLog_iff {checkpoint : Option TrustedCheckpoint} {e : Rejection} :
    P.verifyLog rules L checkpoint = rejectLog e L ↔ P.replayLog rules L checkpoint = .error e := by
  unfold Platform.verifyLog
  cases P.replayLog rules L checkpoint with
  | error e' => simp only [rejectLog_inj, Except.error.injEq]
  | ok st =>
    simp only [reduceCtorEq, iff_false]
    intro h
    injection h with hresult
    cases hresult

/-- The prefixes that verify, by their lengths. -/
def Platform.verifiedLengths (P : Platform) (rules : VerifierRules) (L : List Record) : Set Nat :=
  {n | ∃ M s, M <+: L ∧ Verified P rules M s ∧ M.length = n}

theorem Refused.isGreatest {done todo : List Record} {reason : ReasonCode}
    (hscreen : Screened P (done ++ todo)) (hrun : Replays P rules done s)
    (hf : Refused P rules done s todo reason) :
    IsGreatest (P.verifiedLengths rules (done ++ todo)) done.length := by
  constructor
  · have hdone : done <+: done ++ todo := List.prefix_append done todo
    exact ⟨done, s, hdone, verified_iff.mpr ⟨hscreen.restrict hdone, hrun⟩, rfl⟩
  · rintro n ⟨M, t, hM, hv, rfl⟩
    exact hf.longest hrun hv.run hM

theorem Verified.isGreatest (h : Verified P rules L s) :
    IsGreatest (P.verifiedLengths rules L) L.length := by
  constructor
  · exact ⟨L, s, List.prefix_rfl, h, rfl⟩
  · rintro n ⟨M, t, hM, -, rfl⟩
    exact hM.length_le

/-- The sample log without its last verdict. -/
theorem sampleLog_rejectedFor :
    RejectedFor reference sampleRules (sampleLog.take 7) ⟨.invalidPayload, 6⟩ := by
  obtain ⟨s, hv⟩ := accepts_iff.mp sampleLog_accepts
  obtain ⟨t, ht⟩ := hv.run.take (k := 3) (by decide)
  have hf : Refused reference sampleRules (sampleLog.take 6) t [sampleAction] .invalidPayload :=
    .unpaired (by decide)
  exact .round ((verified_iff.mp hv).1.restrict (List.take_prefix 7 sampleLog)) rfl ht hf

/-- A checkpoint that would cut a pair is refused as a checkpoint. -/
theorem resume_eq_error {pre : List Record} {tc : TrustedCheckpoint} {v : Record}
    (h : P.fromVerifiedLog rules pre = some tc) (hv : v.kind = .verdict) :
    P.resume rules (pre ++ v :: rest) tc = .error .invalidCheckpoint := by
  obtain ⟨t, stateHash, -, -, hrules, hcp⟩ := fromVerifiedLog_eq_some h
  have hlt : ¬(pre ++ v :: rest).length < pre.length := by
    rw [List.length_append]
    omega
  unfold Platform.resume
  simp only [hcp, List.take_left, hrules, ne_eq, not_true_eq_false, if_false, hlt]
  simp [hv]

/-- A log is refused after a run exactly as it is from the start. -/
theorem rejectedFor_append {pre : List Record} {e : Rejection}
    (hscreen : Screened P (pre ++ rest)) :
    RejectedFor P rules (pre ++ rest) ⟨e.reason, pre.length + e.checked⟩ ↔
      ∃ done todo t, rest = done ++ todo ∧ Replays P rules (pre ++ done) t ∧
        Refused P rules (pre ++ done) t todo e.reason ∧ e.checked = 0 + done.length := by
  constructor
  · intro h
    generalize hL : pre ++ rest = L at h
    generalize he : (⟨e.reason, pre.length + e.checked⟩ : Rejection) = e' at h
    cases h with
    | screen hscreen' => exact absurd (hL ▸ hscreen) hscreen'
    | @round done todo s reason _ hdone hrun hf =>
      injection he with hreason hchecked
      subst hreason
      have hprefix : pre <+: done := by
        refine List.prefix_of_prefix_length_le (List.prefix_append pre rest) ?_ (by omega)
        exact ⟨todo, hdone.symm.trans hL.symm⟩
      obtain ⟨more, rfl⟩ := hprefix
      rw [← hL, List.append_assoc, List.append_cancel_left_eq] at hdone
      rw [List.length_append] at hchecked
      exact ⟨more, todo, s, hdone, hrun, hf, by omega⟩
  · rintro ⟨done, todo, t, rfl, hrun, hf, hchecked⟩
    have hlen : pre.length + e.checked = (pre ++ done).length := by
      rw [List.length_append]
      omega
    rw [hlen]
    exact .round hscreen (List.append_assoc pre done todo).symm hrun hf

end Bellbook
