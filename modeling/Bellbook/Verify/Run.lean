import Bellbook.Verify.Locality

/-!
# Runs of the replay

The loop of `verify_log` as a relation on logs and states, one subject and its verdict at a time.

* `PairStep` is everything one round of the loop establishes.
* `Replays` chains the rounds from the empty log. It is deterministic, closed under even prefixes,
  and agrees with the loop (`replayLoop_eq_ok`): a verdict that follows no subject cannot pass,
  since every subject before it already has its verdict.
* `Verified` adds the passes before the loop, and is acceptance (`accepts_iff`).
* The state of a run is the one `build_state_unchecked` makes (`Replays.build`).
-/

namespace Bellbook

open Std

section

variable (P : Platform) (rules : VerifierRules)

/-- One subject and its verdict, replayed after the records `L` in the state `s`. -/
structure PairStep (L : List Record) (s : State) (r v : Record) (s' : State) : Prop where
  subject : r.kind ≠ .verdict
  verdict : v.kind = .verdict
  envelope : P.checkVerdictRecord rules (priorView (L ++ [r])) v = none
  cause : v.refs.head?.map Ref.target = some r.id
  judged : P.decode VerdictData v.data =
    some (verdictOf (P.checkRecord rules (priorView (L ++ [r])) s r))
  folded : (P.applyRecord s r (verdictOf (P.checkRecord rules (priorView (L ++ [r])) s r))).map
    (fun t => { t with appliedUpTo := v.time }) = some s'

/-- The log replays from the empty one and ends in the state. -/
inductive Replays : List Record → State → Prop
  | nil : Replays [] State.empty
  | snoc {L : List Record} {s s' : State} {r v : Record} :
      Replays L s → PairStep P rules L s r v s' → Replays (L ++ [r, v]) s'

/-- The log passes every check of `verify_log`, and the replay ends in the state. -/
structure Verified (L : List Record) (s : State) : Prop where
  times : timesConsecutive L = true
  start : startsAtOne L = true
  ids : ∀ r ∈ L, P.computeId r = some r.id
  run : Replays P rules L s

end

variable {P : Platform} {rules : VerifierRules}

/-! ## One round -/

namespace PairStep

variable {L : List Record} {s s' : State} {r v : Record}

/-- The verdict's envelope is valid for the subject, which had no verdict before. -/
theorem valid (h : PairStep P rules L s r v s') :
    v.refs = [⟨.cause, r.id⟩] ∧ L.any (fun x => x.judges r.id) = false := by
  obtain ⟨subject, id, hfind, hv, hkind, hdup⟩ := Platform.checkVerdictRecord_eq_none.mp h.envelope
  have hid : id = r.id := by
    have := h.cause
    rw [hv.refs] at this
    simpa using this
  subst hid
  refine ⟨hv.refs, ?_⟩
  simp only [priorView, List.any_append, Bool.or_eq_false_iff] at hdup
  exact hdup.1

theorem refs (h : PairStep P rules L s r v s') : v.refs = [⟨.cause, r.id⟩] := h.valid.1

theorem unjudged (h : PairStep P rules L s r v s') : L.any (fun x => x.judges r.id) = false :=
  h.valid.2

theorem judges (h : PairStep P rules L s r v s') (id : RecordId) :
    v.judges id = true ↔ id = r.id := by
  simp [Record.judges, h.verdict, h.refs, refTargets]

theorem subject_judges (h : PairStep P rules L s r v s') (id : RecordId) : r.judges id = false := by
  simp [Record.judges, h.subject]

theorem applyRecord_eq (h : PairStep P rules L s r v s') {d : VerdictData}
    (hd : P.decode VerdictData v.data = some d) :
    (P.applyRecord s r d).map (fun t => { t with appliedUpTo := v.time }) = some s' := by
  rw [h.judged] at hd
  cases hd
  exact h.folded

/-- A rejected subject leaves the state alone; an accepted one is folded by its kind. -/
theorem cases (h : PairStep P rules L s r v s') :
    ((∃ reason, P.checkRecord rules (priorView (L ++ [r])) s r = some reason) ∧
        s' = { s with appliedUpTo := v.time }) ∨
      (P.checkRecord rules (priorView (L ++ [r])) s r = none ∧
        ∃ t, Folded P (s.accept r) r t ∧ s' = { t with appliedUpTo := v.time }) := by
  have hf := h.folded
  cases hc : P.checkRecord rules (priorView (L ++ [r])) s r with
  | some reason =>
    rw [hc] at hf
    left
    exact ⟨⟨reason, rfl⟩, (Option.some.inj hf).symm⟩
  | none =>
    rw [hc] at hf
    right
    obtain ⟨t, ht, rfl⟩ := Option.map_eq_some_iff.mp hf
    exact ⟨rfl, t, folded_of_foldKind ht, rfl⟩

/-- A round is a function of what came before it. -/
theorem unique {s₁ s₂ : State} (h₁ : PairStep P rules L s r v s₁)
    (h₂ : PairStep P rules L s r v s₂) : s₁ = s₂ :=
  Option.some.inj (h₁.folded.symm.trans h₂.folded)

end PairStep

/-! ## Runs -/

namespace Replays

variable {L : List Record} {s s' : State}

theorem even (h : Replays P rules L s) : ∃ k, L.length = 2 * k := by
  induction h with
  | nil => exact ⟨0, rfl⟩
  | snoc _ _ ih =>
    obtain ⟨k, hk⟩ := ih
    exact ⟨k + 1, by simp [hk]; omega⟩

/-- The last pair of a run. -/
theorem inv_snoc {r v : Record} (h : Replays P rules (L ++ [r, v]) s') :
    ∃ s, Replays P rules L s ∧ PairStep P rules L s r v s' := by
  generalize hM : L ++ [r, v] = M at h
  cases h with
  | nil => simp at hM
  | snoc hrun hstep =>
    obtain ⟨rfl, hrv⟩ := List.append_inj' hM rfl
    cases hrv
    exact ⟨_, hrun, hstep⟩

theorem unique (h : Replays P rules L s) : ∀ {s'}, Replays P rules L s' → s = s' := by
  induction h with
  | nil =>
    intro s' h'
    generalize hM : ([] : List Record) = M at h'
    cases h' with
    | nil => rfl
    | snoc => simp at hM
  | snoc _ hstep ih =>
    intro s' h'
    obtain ⟨t, hrun, hstep'⟩ := h'.inv_snoc
    cases ih hrun
    exact hstep.unique hstep'

/-- Runs are closed under prefixes that end between two pairs. -/
theorem take (h : Replays P rules L s) {k : Nat} (hk : 2 * k ≤ L.length) :
    ∃ t, Replays P rules (L.take (2 * k)) t := by
  induction h with
  | nil => exact ⟨_, by simpa using Replays.nil⟩
  | @snoc L s s' r v hrun hstep ih =>
    obtain ⟨j, hj⟩ := hrun.even
    by_cases hle : 2 * k ≤ L.length
    · obtain ⟨t, ht⟩ := ih hle
      exact ⟨t, by rwa [List.take_append_of_le_length hle]⟩
    · -- only the whole log is left, since both lengths are even
      rw [List.length_append, List.length_cons, List.length_cons, List.length_nil] at hk
      rw [List.take_of_length_le (by simp; omega)]
      exact ⟨s', hrun.snoc hstep⟩

/-- A pair in the middle of a run was one of its rounds. -/
theorem mid {r v : Record} {rest : List Record} (hL : Replays P rules L s)
    (h : Replays P rules (L ++ r :: v :: rest) s') :
    ∃ t, PairStep P rules L s r v t ∧ Replays P rules (L ++ [r, v]) t := by
  obtain ⟨j, hj⟩ := hL.even
  have hle : 2 * (j + 1) ≤ (L ++ r :: v :: rest).length := by simp [hj]; omega
  obtain ⟨t, ht⟩ := h.take hle
  have htake : (L ++ r :: v :: rest).take (2 * (j + 1)) = L ++ [r, v] := by
    rw [show 2 * (j + 1) = L.length + 2 by omega, List.take_length_add_append]
    rfl
  rw [htake] at ht
  obtain ⟨t', hrun, hstep⟩ := ht.inv_snoc
  cases hL.unique hrun
  exact ⟨t, hstep, ht⟩

/-- Every subject of a run has its verdict. -/
theorem judged (h : Replays P rules L s) {r : Record} (hr : r ∈ L) (hk : r.kind ≠ .verdict) :
    L.any (fun x => x.judges r.id) = true := by
  induction h with
  | nil => simp at hr
  | @snoc L s s' r' v _ hstep ih =>
    rw [List.any_append, Bool.or_eq_true]
    rcases List.mem_append.mp hr with hr | hr
    · exact .inl (ih hr)
    · right
      simp only [List.mem_cons, List.not_mem_nil, or_false] at hr
      rcases hr with rfl | rfl
      · simp [(hstep.judges r.id).mpr rfl]
      · exact absurd hstep.verdict hk

/-- No later subject repeats the id of an earlier one. -/
theorem fresh (h : Replays P rules L s) {r v x : Record} (hstep : PairStep P rules L s r v s')
    (hx : x ∈ L) (hk : x.kind ≠ .verdict) : x.id ≠ r.id := by
  intro heq
  have hj := h.judged hx hk
  rw [heq, hstep.unjudged] at hj
  exact absurd hj (by simp)

end Replays

/-! ## The loop -/

theorem verdictData_eq_iff {a b : VerdictData} :
    a = b ↔ a.result = b.result ∧ a.reason = b.reason := by
  cases a; cases b
  simp

/-- One round of the loop. -/
theorem replayPair_eq_ok {L rest : List Record} {s : State} {c : Nat} {r v : Record}
    (hr : r.kind ≠ .verdict) {st : ReplayState} :
    P.replayPair rules (L ++ r :: v :: rest) L.length ⟨s, PriorIndex.of L, c⟩ r v = .ok st ↔
      PairStep P rules L s r v st.state ∧ st.index = PriorIndex.of (L ++ [r, v]) ∧
        st.checked = c + 2 := by
  have hindex : (PriorIndex.of L).insert L.length r = PriorIndex.of (L ++ [r]) :=
    (PriorIndex.of_concat L r).symm
  have hindex' : (PriorIndex.of (L ++ [r])).insert (L.length + 1) v =
      PriorIndex.of (L ++ [r, v]) := by
    simpa using (PriorIndex.of_concat (L ++ [r]) v).symm
  have hview : (PriorIndex.of (L ++ [r])).view (L ++ r :: v :: rest) = priorView (L ++ [r]) := by
    rw [show L ++ r :: v :: rest = (L ++ [r]) ++ (v :: rest) by simp, PriorIndex.view_of]
  unfold Platform.replayPair
  simp only [hindex, hview, hindex']
  constructor
  · intro h
    split at h
    · cases h
    next hv =>
    split at h
    · cases h
    next henv =>
    split at h
    · cases h
    next hcause =>
    split at h
    · cases h
    next stored hd =>
    split at h
    · cases h
    next heq =>
    split at h
    · cases h
    next t hfold =>
    cases h
    push Not at hv hcause heq
    rw [← verdictData_eq_iff] at heq
    subst heq
    exact ⟨⟨hr, hv, henv, hcause, hd, by rw [hfold]; rfl⟩, rfl, rfl⟩
  · rintro ⟨hstep, hi, hc⟩
    obtain ⟨t, ht, hs⟩ := Option.map_eq_some_iff.mp hstep.folded
    rw [if_neg (by simp [hstep.verdict]), hstep.envelope]
    simp only [hstep.cause, hstep.judged, ht, ne_eq, not_true_eq_false, or_self, if_false]
    cases st
    simp_all

/-- A verdict at the end of a run is refused: every subject before it has been judged. -/
theorem Replays.verdict_refused {L : List Record} {s : State} (h : Replays P rules L s) (v : Record) :
    ∃ reason, P.checkVerdictRecord rules (priorView L) v = some reason := by
  cases henv : P.checkVerdictRecord rules (priorView L) v with
  | some reason => exact ⟨reason, rfl⟩
  | none =>
    obtain ⟨subject, id, hfind, -, hk, hdup⟩ := Platform.checkVerdictRecord_eq_none.mp henv
    have hmem : subject ∈ L := List.mem_of_find?_eq_some hfind
    have hid : subject.id = id := by simpa using List.find?_some hfind
    have hj := h.judged hmem hk
    rw [hid] at hj
    exact absurd hdup (by simp [priorView, hj])

/-- The loop stops at such a verdict. -/
theorem replayLone_error {L : List Record} {s : State} (h : Replays P rules L s)
    (rest : List Record) (c : Nat) (v : Record) :
    ∃ e, P.replayLone rules (L ++ rest) L.length ⟨s, PriorIndex.of L, c⟩ v = .error e := by
  obtain ⟨reason, hreason⟩ := h.verdict_refused v
  unfold Platform.replayLone
  simp only [PriorIndex.view_of, hreason]
  exact ⟨_, rfl⟩

/-- **The loop follows the runs.** Started after a run, it gets through the next records exactly when
they extend that run, whatever the rest of the log is. -/
theorem replayLoop_append_eq_ok {L rest tail : List Record} {s : State} (h : Replays P rules L s)
    {c : Nat} {st : ReplayState} :
    P.replayLoop rules (L ++ (rest ++ tail)) L.length rest ⟨s, PriorIndex.of L, c⟩ = .ok st ↔
      Replays P rules (L ++ rest) st.state ∧ st.index = PriorIndex.of (L ++ rest) ∧
        st.checked = c + rest.length := by
  -- two records a round
  induction hn : rest.length using Nat.strong_induction_on generalizing L s c rest with
  | _ n ih =>
  subst hn
  match rest with
  | [] =>
    simp only [Platform.replayLoop, List.append_nil, List.length_nil, Nat.add_zero]
    constructor
    · rintro ⟨⟩
      exact ⟨h, rfl, rfl⟩
    · rintro ⟨hrun, hi, hc⟩
      cases st
      simp_all [h.unique hrun]
  | r :: rest =>
    simp only [List.cons_append]
    by_cases hk : r.kind = .verdict
    · obtain ⟨e, he⟩ := replayLone_error h (r :: (rest ++ tail)) c r
      rw [Platform.replayLoop.eq_def]
      simp only [hk, if_true, he, reduceCtorEq, false_iff]
      rintro ⟨hrun, -⟩
      obtain ⟨j, hj⟩ := h.even
      obtain ⟨j', hj'⟩ := hrun.even
      match rest with
      | [] => simp at hj'; omega
      | v :: rest =>
        obtain ⟨t, hstep, -⟩ := h.mid hrun
        exact hstep.subject hk
    · match rest with
      | [] =>
        simp only [Platform.replayLoop, hk, if_false, reduceCtorEq, false_iff]
        rintro ⟨hrun, -⟩
        obtain ⟨j, hj⟩ := h.even
        obtain ⟨j', hj'⟩ := hrun.even
        simp at hj'
        omega
      | v :: rest =>
        simp only [Platform.replayLoop, hk, if_false, List.cons_append]
        have hassoc : L ++ r :: v :: (rest ++ tail) = (L ++ [r, v]) ++ (rest ++ tail) := by simp
        have hlen : L.length + 2 = (L ++ [r, v]).length := by simp
        cases hp : P.replayPair rules (L ++ r :: v :: (rest ++ tail)) L.length
            ⟨s, PriorIndex.of L, c⟩ r v with
        | error e =>
          simp only [reduceCtorEq, false_iff]
          rintro ⟨hrun, -⟩
          obtain ⟨t, hstep, -⟩ := h.mid hrun
          have hok : P.replayPair rules (L ++ r :: v :: (rest ++ tail)) L.length
              ⟨s, PriorIndex.of L, c⟩ r v = .ok ⟨t, PriorIndex.of (L ++ [r, v]), c + 2⟩ :=
            (replayPair_eq_ok hk).mpr ⟨hstep, rfl, rfl⟩
          rw [hp] at hok
          cases hok
        | ok st' =>
          obtain ⟨hstep, hi, hc⟩ := (replayPair_eq_ok hk).mp hp
          obtain ⟨t, index, c'⟩ := st'
          simp only at hstep hi hc
          subst hi hc
          have hrest := ih rest.length (by simp only [List.length_cons]; omega) (h.snoc hstep)
            (c := c + 2) rfl
          rw [show L ++ r :: v :: rest = (L ++ [r, v]) ++ rest by simp, hassoc, hlen, hrest]
          simp only [List.length_cons]
          rw [show c + 2 + rest.length = c + (rest.length + 1 + 1) by omega]

/-- To the end of the log. -/
theorem replayLoop_eq_ok {L rest : List Record} {s : State} (h : Replays P rules L s) {c : Nat}
    {st : ReplayState} :
    P.replayLoop rules (L ++ rest) L.length rest ⟨s, PriorIndex.of L, c⟩ = .ok st ↔
      Replays P rules (L ++ rest) st.state ∧ st.index = PriorIndex.of (L ++ rest) ∧
        st.checked = c + rest.length := by
  rw [← replayLoop_append_eq_ok h, List.append_nil]

/-- The passes before the loop. -/
theorem replayFrom_eq_ok {records : List Record} {start : Nat} {s : State} {index : PriorIndex}
    {st : ReplayState} :
    P.replayFrom rules records start s index = .ok st ↔
      timesConsecutive records = true ∧ startsAtOne records = true ∧
        (∀ r ∈ records, P.computeId r = some r.id) ∧
        P.replayLoop rules records start (records.drop start) ⟨s, index, 0⟩ = .ok st := by
  have hids : records.all (fun r => P.computeId r = some r.id) = true ↔
      ∀ r ∈ records, P.computeId r = some r.id := by simp
  unfold Platform.replayFrom
  rw [← hids]
  cases timesConsecutive records
  · simp
  cases startsAtOne records
  · simp
  cases records.all (fun r => P.computeId r = some r.id)
  · simp
  · simp

/-- Replay from a log that replays already. -/
theorem replayFrom_append_eq_ok {L rest : List Record} {s : State} (h : Replays P rules L s)
    {st : ReplayState} :
    P.replayFrom rules (L ++ rest) L.length s (PriorIndex.of L) = .ok st ↔
      Verified P rules (L ++ rest) st.state ∧ st.index = PriorIndex.of (L ++ rest) ∧
        st.checked = rest.length := by
  rw [replayFrom_eq_ok, List.drop_left, replayLoop_eq_ok h, Nat.zero_add]
  exact ⟨fun ⟨ht, hs, hi, hrun, h⟩ => ⟨⟨ht, hs, hi, hrun⟩, h⟩,
    fun ⟨hv, h⟩ => ⟨hv.times, hv.start, hv.ids, hv.run, h⟩⟩

theorem replayLog_none_eq_ok {records : List Record} {st : ReplayState} :
    P.replayLog rules records none = .ok st ↔
      Verified P rules records st.state ∧ st.index = PriorIndex.of records ∧
        st.checked = records.length :=
  replayFrom_append_eq_ok Replays.nil

/-- **Acceptance is a verified run.** -/
theorem accepts_iff {records : List Record} :
    P.Accepts rules records ↔ ∃ s, Verified P rules records s := by
  unfold Platform.Accepts Platform.verifyLog
  cases h : P.replayLog rules records none with
  | error e =>
    simp only [rejectLog, reduceCtorEq, false_iff]
    rintro ⟨s, hs⟩
    have hok : P.replayLog rules records none = .ok ⟨s, PriorIndex.of records, records.length⟩ :=
      replayLog_none_eq_ok.mpr ⟨hs, rfl, rfl⟩
    rw [h] at hok
    cases hok
  | ok st => simpa using ⟨st.state, (replayLog_none_eq_ok.mp h).1⟩

/-- The report on an accepted log. -/
theorem Verified.verifyLog_eq {records : List Record} {s : State} (h : Verified P rules records s) :
    P.verifyLog rules records none =
      { result := .accept
        reason := none
        checkedRecords := records.length
        lastTime := lastTime records
        retractedRecords := s.retractedRecords
        taintedRecords := s.taintedRecords
        standing := P.deriveStanding records s } := by
  have hok : P.replayLog rules records none = .ok ⟨s, PriorIndex.of records, records.length⟩ :=
    replayLog_none_eq_ok.mpr ⟨h, rfl, rfl⟩
  simp only [Platform.verifyLog, hok]

/-! ## Times -/

theorem nextTime?_eq_some {t t' : Time} : nextTime? t = some t' ↔ t'.toNat = t.toNat + 1 := by
  have ht := t.toNat_lt
  have ht' := t'.toNat_lt
  unfold nextTime?
  split
  · next hmax =>
    simp only [reduceCtorEq, false_iff]
    omega
  · next hmax =>
    have hsucc : (t + 1).toNat = t.toNat + 1 := by
      rw [UInt64.toNat_add]
      exact Nat.mod_eq_of_lt (by simp; omega)
    rw [Option.some.injEq, ← hsucc, eq_comm (a := t'.toNat), UInt64.toNat_inj]

theorem timesConsecutive_cons {a : Record} {L : List Record} :
    timesConsecutive (a :: L) = true ↔
      ∀ (i : Nat) (h : i < (a :: L).length), ((a :: L)[i]).time.toNat = a.time.toNat + i := by
  induction L generalizing a with
  | nil => simp [timesConsecutive]
  | cons b L ih =>
    simp only [timesConsecutive, Bool.and_eq_true, decide_eq_true_eq, nextTime?_eq_some, ih]
    constructor
    · rintro ⟨hb, h⟩ i hi
      cases i with
      | zero => rfl
      | succ i =>
        rw [List.getElem_cons_succ, h i (by simpa using hi), hb]
        omega
    · intro h
      have hb : b.time.toNat = a.time.toNat + 1 := h 1 (by simp)
      refine ⟨hb, fun i hi => ?_⟩
      have := h (i + 1) (by simpa using hi)
      rw [List.getElem_cons_succ] at this
      omega

/-- The times of an accepted log are 1, 2, …, n. -/
theorem times_iff {L : List Record} :
    timesConsecutive L = true ∧ startsAtOne L = true ↔
      ∀ (i : Nat) (h : i < L.length), (L[i]).time.toNat = i + 1 := by
  cases L with
  | nil => simp [timesConsecutive, startsAtOne]
  | cons a L =>
    have hone : startsAtOne (a :: L) = true ↔ a.time.toNat = 1 := by
      rw [startsAtOne, decide_eq_true_eq, ← UInt64.toNat_inj]
      rfl
    rw [timesConsecutive_cons, hone]
    constructor
    · rintro ⟨h, ha⟩ i hi
      rw [h i hi, ha]
      omega
    · intro h
      have ha : a.time.toNat = 1 := h 0 (by simp)
      refine ⟨fun i hi => ?_, ha⟩
      rw [h i hi, ha]
      omega

theorem getElem_pair_left {L : List Record} {a b : Record} (h : L.length < (L ++ [a, b]).length) :
    (L ++ [a, b])[L.length] = a := by simp

theorem getElem_pair_right {L : List Record} {a b : Record}
    (h : L.length + 1 < (L ++ [a, b]).length) : (L ++ [a, b])[L.length + 1] = b := by simp

/-- Where a verdict stands, its subject does. -/
theorem two_mul_lt {L : List Record} {k : Nat} (h : 2 * k + 1 < L.length) : 2 * k < L.length :=
  Nat.lt_of_succ_lt h

theorem take_two_more {L : List Record} {k : Nat} (h : 2 * k + 1 < L.length) :
    L.take (2 * (k + 1)) = L.take (2 * k) ++ [L[2 * k], L[2 * k + 1]] := by
  rw [show 2 * (k + 1) = 2 * k + 1 + 1 by omega, List.take_succ_eq_append_getElem h,
    List.take_succ_eq_append_getElem (by omega), List.append_assoc]
  rfl

namespace Verified

variable {L : List Record} {s : State}

theorem time_eq (h : Verified P rules L s) {i : Nat} (hi : i < L.length) :
    (L[i]).time.toNat = i + 1 :=
  times_iff.mp ⟨h.times, h.start⟩ i hi

/-- Accepted logs are closed under prefixes that end between two pairs. -/
theorem take (h : Verified P rules L s) {k : Nat} (hk : 2 * k ≤ L.length) :
    ∃ t, Verified P rules (L.take (2 * k)) t := by
  obtain ⟨t, ht⟩ := h.run.take hk
  have htimes := times_iff.mpr fun i (hi : i < (L.take (2 * k)).length) => by
    rw [List.getElem_take]
    exact h.time_eq (by simp at hi; omega)
  exact ⟨t, htimes.1, htimes.2, fun r hr => h.ids r (List.mem_of_mem_take hr), ht⟩

/-- What is accepted after one more pair. -/
theorem snoc_iff {r v : Record} {s' : State} :
    Verified P rules (L ++ [r, v]) s' ↔
      ∃ s, Verified P rules L s ∧ r.time.toNat = L.length + 1 ∧ v.time.toNat = L.length + 2 ∧
        P.computeId r = some r.id ∧ P.computeId v = some v.id ∧ PairStep P rules L s r v s' := by
  constructor
  · intro h
    obtain ⟨s, hrun, hstep⟩ := h.run.inv_snoc
    have htimes := times_iff.mpr fun i (hi : i < L.length) => by
      have := h.time_eq (i := i) (by simp; omega)
      rwa [List.getElem_append_left hi] at this
    refine ⟨s, ⟨htimes.1, htimes.2, fun x hx => h.ids x (by simp [hx]), hrun⟩, ?_, ?_,
      h.ids r (by simp), h.ids v (by simp), hstep⟩
    · simpa using h.time_eq (i := L.length) (by simp)
    · simpa using h.time_eq (i := L.length + 1) (by simp)
  · rintro ⟨s, h, hr, hv, hri, hvi, hstep⟩
    have htimes := times_iff.mpr fun i (hi : i < (L ++ [r, v]).length) => by
      by_cases hlt : i < L.length
      · rw [List.getElem_append_left hlt, h.time_eq hlt]
      · simp only [List.length_append, List.length_cons, List.length_nil] at hi
        obtain rfl | rfl : i = L.length ∨ i = L.length + 1 := by omega
        · simpa using hr
        · simpa using hv
    refine ⟨htimes.1, htimes.2, fun x hx => ?_, h.run.snoc hstep⟩
    simp only [List.mem_append, List.mem_cons, List.not_mem_nil, or_false] at hx
    rcases hx with hx | rfl | rfl
    · exact h.ids x hx
    · exact hri
    · exact hvi

theorem nil : Verified P rules [] State.empty := ⟨rfl, rfl, by simp, Replays.nil⟩

/-- Induction over accepted logs, a pair at a time. -/
@[elab_as_elim]
theorem rec_snoc {motive : (L : List Record) → (s : State) → Verified P rules L s → Prop}
    (nil : motive [] State.empty nil)
    (snoc : ∀ {L s r v s'} (hL : Verified P rules L s) (hall : Verified P rules (L ++ [r, v]) s'),
      PairStep P rules L s r v s' → motive L s hL → motive (L ++ [r, v]) s' hall)
    (h : Verified P rules L s) : motive L s h := by
  obtain ⟨ht, hs, hi, hrun⟩ := h
  induction hrun with
  | nil => exact nil
  | snoc hrun hstep ih =>
    have hall : Verified P rules _ _ := ⟨ht, hs, hi, hrun.snoc hstep⟩
    obtain ⟨t, hL, -⟩ := snoc_iff.mp hall
    cases hL.run.unique hrun
    exact snoc hL hall hstep (ih hL.times hL.start hL.ids)

/-- The pair at position `2 * k` of an accepted log was a round of its replay. -/
theorem pair_at (h : Verified P rules L s) {k : Nat} (hk : 2 * k + 1 < L.length) :
    ∃ t t', Verified P rules (L.take (2 * k)) t ∧
      PairStep P rules (L.take (2 * k)) t L[2 * k] L[2 * k + 1] t' ∧
      Verified P rules (L.take (2 * k) ++ [L[2 * k], L[2 * k + 1]]) t' := by
  obtain ⟨t', ht'⟩ := h.take (k := k + 1) (by omega)
  rw [take_two_more hk] at ht'
  obtain ⟨t, ht, -, -, -, -, hstep⟩ := snoc_iff.mp ht'
  exact ⟨t, t', ht, hstep, ht'⟩

end Verified

end Bellbook
