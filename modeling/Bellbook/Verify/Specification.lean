import Bellbook.Verify.Reference

/-!
# The plain specification of an accepted log

`MeetsSpec` says what an accepted log is without an index, an incremental state or a loop: times
1, 2, …, n, computed ids, and subjects at even positions, each followed by a valid verdict record
that stores what `verify_record` returns on the records before it and the state rebuilt from them.
`verify_log` decides exactly this.
-/

namespace Bellbook

open Std

namespace Platform

variable (P : Platform)

/-- A subject and the record after it, over the records `before` the subject. -/
structure PairSpec (rules : VerifierRules) (before : List Record) (r v : Record) : Prop where
  subject : r.kind ≠ .verdict
  verdict : v.kind = .verdict
  envelope : P.ValidVerdict rules r v
  stored : ∃ s, P.buildStateUnchecked before = some s ∧
    P.decode VerdictData v.data = some (P.verifyRecord rules before s r)

/-- The specification, with everything rebuilt from scratch for each pair. -/
structure MeetsSpec (rules : VerifierRules) (records : List Record) : Prop where
  times : ∀ (i : Nat) (h : i < records.length), (records[i]).time.toNat = i + 1
  ids : ∀ r ∈ records, P.computeId r = some r.id
  even : records.length % 2 = 0
  pairs : ∀ (k : Nat) (h : 2 * k + 1 < records.length),
    P.PairSpec rules (records.take (2 * k)) records[2 * k] records[2 * k + 1]

end Platform

variable {P : Platform} {rules : VerifierRules} {L : List Record} {s : State}

theorem verdictOf_inj {a b : Option ReasonCode} (h : verdictOf a = verdictOf b) : a = b := by
  cases a <;> cases b <;> simp_all [verdictOf]

theorem verifyRecord_eq (before : List Record) (r : Record) :
    P.verifyRecord rules before s r = verdictOf (P.checkRecord rules (priorView before) s r) := by
  have := PriorIndex.view_of before []
  rw [List.append_nil] at this
  rw [Platform.verifyRecord, this]

/-- A verdict record of a run judges a subject of the run. -/
theorem Replays.subject_of_judges (h : Replays P rules L s) {x : Record} (hx : x ∈ L)
    {id : RecordId} (hj : x.judges id = true) : ∃ r ∈ L, r.id = id := by
  induction h with
  | nil => simp at hx
  | @snoc L s s' r v _ hstep ih =>
    rcases List.mem_append.mp hx with hx | hx
    · obtain ⟨y, hy, hid⟩ := ih hx
      exact ⟨y, List.mem_append_left _ hy, hid⟩
    · simp only [List.mem_cons, List.not_mem_nil, or_false] at hx
      rcases hx with rfl | rfl
      · simp [hstep.subject_judges] at hj
      · exact ⟨r, by simp, ((hstep.judges id).mp hj).symm⟩

namespace Verified

/-- The next subject has an id of its own. -/
theorem id_fresh (h : Verified P rules L s) {r : Record} (hid : P.computeId r = some r.id)
    (ht : r.time.toNat = L.length + 1) (hs : P.HashSound (L ++ [r])) {x : Record} (hx : x ∈ L) :
    x.id ≠ r.id := by
  intro heq
  have := hs.eq_of_id_eq (List.mem_append_left _ hx) (by simp) (h.ids x hx) hid heq
  subst this
  obtain ⟨i, hi, rfl⟩ := List.mem_iff_getElem.mp hx
  rw [h.time_eq hi] at ht
  omega

/-- The next round, as a condition on its two records. -/
theorem pairStep_iff (h : Verified P rules L s) (hfrozen : P.Frozen rules) {r v : Record}
    (hid : P.computeId r = some r.id) (ht : r.time.toNat = L.length + 1)
    (hs : P.HashSound (L ++ [r])) :
    (∃ s', PairStep P rules L s r v s') ↔ P.PairSpec rules L r v := by
  have hfind : (priorView (L ++ [r])).find r.id = some r := by
    refine find_self (by simp) fun x hx heq => ?_
    rcases List.mem_append.mp hx with hx | hx
    · exact absurd heq (h.id_fresh hid ht hs hx)
    · exact List.mem_singleton.mp hx
  constructor
  · rintro ⟨s', hstep⟩
    obtain ⟨subject, id, hsub, hv, -, -⟩ := Platform.checkVerdictRecord_eq_none.mp hstep.envelope
    have hrefs : v.refs = [⟨.cause, id⟩] := hv.refs
    obtain rfl : id = r.id := by
      rw [hstep.refs] at hrefs
      simpa using hrefs.symm
    obtain rfl : r = subject := Option.some.inj (hfind.symm.trans hsub)
    refine ⟨hstep.subject, hstep.verdict, hv, s, h.run.build, ?_⟩
    rw [hstep.judged, verifyRecord_eq, h.checkRecord_prior hid hstep.subject hs]
  · rintro ⟨hk, hv, henv, s₀, hbuild, hstored⟩
    obtain rfl : s = s₀ := Option.some.inj (h.run.build.symm.trans hbuild)
    rw [verifyRecord_eq, ← h.checkRecord_prior hid hk hs] at hstored
    have hdup : (priorView (L ++ [r])).hasVerdictFor r.id = false := by
      show (L ++ [r]).any (fun x => x.judges r.id) = false
      rw [List.any_eq_false]
      intro x hx hj
      rcases List.mem_append.mp hx with hx | hx
      · obtain ⟨y, hy, hyid⟩ := h.run.subject_of_judges hx hj
        exact h.id_fresh hid ht hs hy hyid
      · obtain rfl := List.mem_singleton.mp hx
        simp [Record.judges, hk] at hj
    have hfold : ∃ t, P.applyRecord s r
        (verdictOf (P.checkRecord rules (priorView (L ++ [r])) s r)) = some t := by
      cases hc : P.checkRecord rules (priorView (L ++ [r])) s r with
      | some reason => exact ⟨s, rfl⟩
      | none =>
        rw [checkRecord_subject hk] at hc
        exact applyAccepted_total hfrozen hs.schemasDistinct hc s
    obtain ⟨t, hfold⟩ := hfold
    exact ⟨_, hk, hv, Platform.checkVerdictRecord_eq_none.mpr ⟨r, r.id, hfind, henv, hk, hdup⟩,
      by simp [henv.refs], hstored, by rw [hfold]; rfl⟩

/-- What is accepted after one more pair, in terms of the specification. -/
theorem snoc_spec (h : Verified P rules L s) (hfrozen : P.Frozen rules) {r v : Record}
    (hs : P.HashSound (L ++ [r])) :
    (∃ s', Verified P rules (L ++ [r, v]) s') ↔
      r.time.toNat = L.length + 1 ∧ v.time.toNat = L.length + 2 ∧
        P.computeId r = some r.id ∧ P.computeId v = some v.id ∧ P.PairSpec rules L r v := by
  constructor
  · rintro ⟨s', h'⟩
    obtain ⟨s₀, hL, htr, htv, hir, hiv, hstep⟩ := snoc_iff.mp h'
    cases h.run.unique hL.run
    exact ⟨htr, htv, hir, hiv, (h.pairStep_iff hfrozen hir htr hs).mp ⟨s', hstep⟩⟩
  · rintro ⟨htr, htv, hir, hiv, hpair⟩
    obtain ⟨s', hstep⟩ := (h.pairStep_iff hfrozen hir htr hs).mpr hpair
    exact ⟨s', snoc_iff.mpr ⟨s, h, htr, htv, hir, hiv, hstep⟩⟩

end Verified

/-! ## The specification over prefixes -/

theorem Platform.MeetsSpec.verified (h : P.MeetsSpec rules L) (hfrozen : P.Frozen rules)
    (hs : P.HashSound L) {k : Nat} (hk : 2 * k ≤ L.length) :
    ∃ s, Verified P rules (L.take (2 * k)) s := by
  induction k with
  | zero => exact ⟨State.empty, Verified.nil⟩
  | succ k ih =>
    obtain ⟨s, hv⟩ := ih (by omega)
    have hlt : 2 * k + 1 < L.length := by omega
    have hlen : (L.take (2 * k)).length = 2 * k := by simp; omega
    rw [take_two_more hlt]
    refine (hv.snoc_spec hfrozen (hashSound_take_concat hs (by omega))).mpr
      ⟨?_, ?_, h.ids _ (List.getElem_mem _), h.ids _ (List.getElem_mem _), h.pairs k hlt⟩
    · rw [h.times, hlen]
    · rw [h.times, hlen]

theorem Verified.meetsSpec (h : Verified P rules L s) (hfrozen : P.Frozen rules)
    (hs : P.HashSound L) : P.MeetsSpec rules L := by
  obtain ⟨n, hn⟩ := h.run.even
  refine ⟨fun i hi => h.time_eq hi, h.ids, by omega, fun k hk => ?_⟩
  obtain ⟨t, t', ht, -, ht'⟩ := h.pair_at hk
  exact ((ht.snoc_spec hfrozen (hashSound_take_concat hs (by omega))).mp ⟨t', ht'⟩).2.2.2.2

/-- **`verify_log` decides the plain specification.** The two remarks on how it does so: over an
accepted log, at each pair, the verdict does not depend on the subject being in the index, and a
verdict in the subject's place would be refused. -/
theorem verifyLog_iff_meetsSpec (hfrozen : P.Frozen rules) {records : List Record}
    (hs : P.HashSound records) :
    (P.Accepts rules records ↔ P.MeetsSpec rules records) ∧
      (P.Accepts rules records → ∀ (k : Nat) (h : 2 * k < records.length) (s : State),
        P.buildStateUnchecked (records.take (2 * k)) = some s →
        (verdictOf (P.checkRecord rules
            ((PriorIndex.of (records.take (2 * k + 1))).view records) s records[2 * k]) =
          P.verifyRecord rules (records.take (2 * k)) s records[2 * k]) ∧
        ∀ (c : Nat) (v : Record), ∃ e, P.replayLone rules records (2 * k)
          ⟨s, PriorIndex.of (records.take (2 * k)), c⟩ v = .error e) := by
  refine ⟨⟨fun h => ?_, fun h => ?_⟩, fun h k hk s hbuild => ?_⟩
  · obtain ⟨s, hv⟩ := accepts_iff.mp h
    exact hv.meetsSpec hfrozen hs
  · obtain ⟨k, hk⟩ : ∃ k, records.length = 2 * k := ⟨records.length / 2, by have := h.even; omega⟩
    obtain ⟨s, hv⟩ := h.verified hfrozen hs (k := k) (by omega)
    rw [List.take_of_length_le (by omega)] at hv
    exact accepts_iff.mpr ⟨s, hv⟩
  · obtain ⟨s', hv⟩ := accepts_iff.mp h
    obtain ⟨t, ht⟩ := hv.take (k := k) (by omega)
    obtain rfl : t = s := Option.some.inj (ht.run.build.symm.trans hbuild)
    have hlen : (records.take (2 * k)).length = 2 * k := by simp; omega
    constructor
    · have hview := PriorIndex.view_of (records.take (2 * k + 1)) (records.drop (2 * k + 1))
      rw [List.take_append_drop] at hview
      have hpair := (hv.meetsSpec hfrozen hs).pairs k (by have := hv.run.even; omega)
      rw [hview, verifyRecord_eq, List.take_succ_eq_append_getElem hk,
        ht.checkRecord_prior (hv.ids _ (List.getElem_mem _)) hpair.subject
          (hashSound_take_concat hs hk)]
    · intro c v
      have := replayLone_error ht.run (records.drop (2 * k)) c v
      rwa [List.take_append_drop, hlen] at this

theorem sampleLog_meetsSpec : reference.MeetsSpec sampleRules sampleLog :=
  (verifyLog_iff_meetsSpec sampleRules_frozen sampleLog_hashSound).1.mp sampleLog_accepts

end Bellbook
