import Bellbook.Log.Batch

/-!
# A checked batch lands exactly once

* `CommitRun` are the commits of a batch whose writes all succeed. Handles over the same file and
  records run alike (`CommitRun.of_intent`), and a run can be cut after any of its pairs
  (`CommitRun.split`), so a call that finds the first pairs in the log continues the run.
* A crash in the middle of a batch leaves the first pairs of the run, and opening the directory gives
  the handle over them (`CommitRun.crash`).
* `checked_batch_exactly_once` puts these together for a first call, all its retries, and calls on
  logs in which the batch did not land.
-/

namespace Bellbook

open Std

/-- The two records of a commit. -/
def Prepared.pair (c : Prepared) : List Record := [c.subject, c.verdictRecord]

/-- What a commit returns. -/
def Prepared.result (c : Prepared) : RecordId × VerdictData := (c.subject.id, c.verdict)

theorem length_pairs (cs : List Prepared) : (cs.flatMap Prepared.pair).length = 2 * cs.length := by
  induction cs with
  | nil => rfl
  | cons c cs ih =>
    rw [List.flatMap_cons, List.length_append, ih, List.length_cons, Prepared.pair,
      List.length_cons, List.length_singleton]
    omega

theorem take_pairs (cs : List Prepared) (j : Nat) :
    (cs.flatMap Prepared.pair).take (2 * j) = (cs.take j).flatMap Prepared.pair := by
  induction cs generalizing j with
  | nil => simp
  | cons c cs ih =>
    cases j with
    | zero => simp
    | succ j => simp [Prepared.pair, Nat.mul_add, ih]

theorem take_pairs_subset (L : List Record) (cs : List Prepared) (j : Nat) :
    (cs.take j).flatMap Prepared.pair ⊆ L ++ cs.flatMap Prepared.pair := by
  intro r hr
  obtain ⟨c, hc, hrc⟩ := List.mem_flatMap.mp hr
  exact List.mem_append_right _ (List.mem_flatMap.mpr ⟨c, List.mem_of_mem_take hc, hrc⟩)

/-- All file writes of all commits succeed. -/
def neverFaults : Nat → Faults := fun _ => noFaults

section

variable (P : Platform) (rules : VerifierRules)

/-- Commits one after the other, none of whose writes fails. -/
inductive CommitRun : LogWriter → State → List Proposal → List Prepared → LogWriter → State → Prop
  | nil {w : LogWriter} {s : State} : CommitRun w s [] [] w s
  | cons {w w₁ w' : LogWriter} {s s₁ s' : State} {p : Proposal} {c : Prepared} {ps : List Proposal}
      {cs : List Prepared} : P.prepare rules none w s p = .ok c →
      P.commit rules noFaults w s p = ⟨.ok c.result, w₁, s₁⟩ → CommitRun w₁ s₁ ps cs w' s' →
      CommitRun w s (p :: ps) (c :: cs) w' s'

end

variable {P : Platform} {rules : VerifierRules} {L : List Record} {w w₁ w' : LogWriter}
  {s s₁ s' : State} {p : Proposal} {c : Prepared} {ps qs : List Proposal} {cs : List Prepared}
  {file : Bytes} {intent : Option Bytes} {hash : Hash256} {maxFileBytes : Nat}

/-! ## One commit -/

theorem commit_eq_ok {faults : Faults} {x : RecordId × VerdictData}
    (h : P.commit rules faults w s p = ⟨.ok x, w', s'⟩) :
    ∃ c, P.prepare rules none w s p = .ok c ∧ x = c.result := by
  unfold Platform.commit Platform.commitInner at h
  split at h
  · cases h
  · next c hc => exact ⟨c, hc, (persist_eq_ok (prepare_eq_ok hc) h).1⟩

theorem committed_of_commit (hc : P.prepare rules none w s p = .ok c)
    (h : P.commit rules noFaults w s p = ⟨.ok c.result, w', s'⟩) : Committed P rules w s p c w' s' := by
  have hpersist : P.persist noFaults w s c = ⟨.ok c.result, w', s'⟩ :=
    (commitInner_of_prepare hc).symm.trans h
  exact (persist_eq_ok (prepare_eq_ok hc) hpersist).2

/-- The subject of a commit is recognised as its proposal. -/
theorem prepare_matches (h : P.prepare rules none w s p = .ok c) :
    proposalMatchesRecord p c.subject = true := by
  unfold Platform.prepare Platform.preparePair Platform.attachSignature at h
  simp only [bind_eq_ok, orSerde_eq_ok, Option.some.injEq, exists_eq_left', pure, Except.pure,
    Except.ok.injEq] at h
  obtain ⟨-, -, -, -, -, -, -, -, t, -, subject, hsubject, v, -, -, -, rfl⟩ := h
  obtain ⟨-, heq⟩ := withComputedId_eq_some.mp hsubject
  simp only [proposalMatchesRecord]
  rw [heq]
  simp [Platform.materialize]

theorem prepare_verdict (h : P.prepare rules none w s p = .ok c) (hread : P.ReadsVerdicts) :
    P.decode VerdictData c.verdictRecord.data = some c.verdict := by
  obtain ⟨t, -, hmat⟩ := (prepare_eq_ok h).record
  exact hread.decode (materializeVerdict_eq_some hmat).2.1

/-- An old intent file makes no difference to a commit. -/
theorem persist_intent (i j : Option Bytes) (s : State) (c : Prepared) :
    P.persist noFaults (handleOver file i L maxFileBytes hash) s c =
      P.persist noFaults (handleOver file j L maxFileBytes hash) s c := by
  obtain ⟨b, hb⟩ := canonicalJson_intent (P := P) ⟨c.subject.id, false⟩
  simp only [Platform.persist, Platform.writeIntent, hb, noFaults, handleOver, fileLogOver]

theorem commit_intent (i j : Option Bytes) (h : P.prepare rules none
      (handleOver file i L maxFileBytes hash) s p = .ok c) :
    P.commit rules noFaults (handleOver file j L maxFileBytes hash) s p =
      P.commit rules noFaults (handleOver file i L maxFileBytes hash) s p := by
  have hj : P.prepare rules none (handleOver file j L maxFileBytes hash) s p = .ok c := h
  unfold Platform.commit
  rw [commitInner_of_prepare h, commitInner_of_prepare hj, persist_intent j i]

/-! ## Runs of commits -/

section RunAll

variable {α β : Type} {call : LogWriter → State → α → Outcome (List β)} {a : α} {as : List α}
  {xs : List β} {e : LogError} {faults : Nat → Faults} {x : RecordId × VerdictData} {k : Nat}

theorem runAll_cons_ok (h : call w s a = ⟨.ok xs, w₁, s₁⟩) :
    runAll call w s (a :: as) = ⟨(runAll call w₁ s₁ as).result.map (xs ++ ·),
      (runAll call w₁ s₁ as).writer, (runAll call w₁ s₁ as).state⟩ := by
  rw [runAll, h]

theorem runAll_cons_error (h : call w s a = ⟨.error e, w₁, s₁⟩) :
    runAll call w s (a :: as) = ⟨.error e, w₁, s₁⟩ := by
  rw [runAll, h]

theorem commitAt_ok (h : P.commit rules (faults k) w s p = ⟨.ok x, w₁, s₁⟩) :
    P.commitAt rules faults w s (p, k) = ⟨.ok [x], w₁, s₁⟩ := by
  rw [Platform.commitAt, h]
  rfl

theorem commitAt_error (h : P.commit rules (faults k) w s p = ⟨.error e, w₁, s₁⟩) :
    P.commitAt rules faults w s (p, k) = ⟨.error e, w₁, s₁⟩ := by
  rw [Platform.commitAt, h]
  rfl

end RunAll

namespace CommitRun

theorem length_eq (h : CommitRun P rules w s ps cs w' s') : ps.length = cs.length := by
  induction h with
  | nil => rfl
  | cons _ _ _ ih => simp [ih]

theorem of_runAll {xs : List (RecordId × VerdictData)} {k : Nat}
    (h : runAll (P.commitAt rules neverFaults) w s (ps.zipIdx k) = ⟨.ok xs, w', s'⟩) :
    ∃ cs, CommitRun P rules w s ps cs w' s' ∧ xs = cs.map Prepared.result := by
  induction ps generalizing w s xs k with
  | nil =>
    cases h
    exact ⟨[], .nil, rfl⟩
  | cons p ps ih =>
    rw [List.zipIdx_cons] at h
    cases ho : P.commit rules noFaults w s p with
    | mk result w₁ s₁ =>
      cases result with
      | error e =>
        rw [runAll_cons_error (commitAt_error ho)] at h
        cases h
      | ok x =>
        obtain ⟨c, hc, rfl⟩ := commit_eq_ok ho
        rw [runAll_cons_ok (commitAt_ok ho)] at h
        cases hrest : runAll (P.commitAt rules neverFaults) w₁ s₁ (ps.zipIdx (k + 1)) with
        | mk result w₂ s₂ =>
          rw [hrest] at h
          cases result with
          | error e => cases h
          | ok ys =>
            cases h
            obtain ⟨cs, hrun, rfl⟩ := ih hrest
            exact ⟨c :: cs, .cons hc ho hrun, rfl⟩

theorem runAll_eq (h : CommitRun P rules w s ps cs w' s') (k : Nat) :
    runAll (P.commitAt rules neverFaults) w s (ps.zipIdx k) =
      ⟨.ok (cs.map Prepared.result), w', s'⟩ := by
  induction h generalizing k with
  | nil => rfl
  | cons _ hcommit _ ih =>
    rw [List.zipIdx_cons, runAll_cons_ok (commitAt_ok hcommit), ih (k + 1)]
    rfl

/-- A run can be cut after any of its commits. -/
theorem split (h : CommitRun P rules w s ps cs w' s') (k : Nat) :
    ∃ u t, CommitRun P rules w s (ps.take k) (cs.take k) u t ∧
      CommitRun P rules u t (ps.drop k) (cs.drop k) w' s' := by
  induction h generalizing k with
  | nil =>
    simp only [List.take_nil, List.drop_nil]
    exact ⟨_, _, .nil, .nil⟩
  | @cons w w₁ w' s s₁ s' p c ps cs hc hcommit hrun ih =>
    cases k with
    | zero => exact ⟨w, s, .nil, .cons hc hcommit hrun⟩
    | succ k =>
      obtain ⟨u, t, hleft, hright⟩ := ih k
      exact ⟨u, t, .cons hc hcommit hleft, hright⟩

theorem records (h : CommitRun P rules w s ps cs w' s') :
    w'.log.records = w.log.records ++ cs.flatMap Prepared.pair := by
  induction h with
  | nil => simp
  | cons hc hcommit _ ih =>
    rw [ih, (committed_of_commit hc hcommit).records, List.flatMap_cons, List.append_assoc]
    rfl

theorem verified (h : CommitRun P rules w s ps cs w' s') (hfrozen : P.Frozen rules)
    (hread : P.ReadsVerdicts) (hps : ∀ p ∈ ps, p.space = rules.space ∧ p.kind ≠ .verdict)
    (hstep : w.InStep) (hv : Verified P rules w.log.records s) (hs : P.HashSound w'.log.records) :
    Verified P rules w'.log.records s' := by
  induction h with
  | nil => exact hv
  | @cons w w₁ w' s s₁ s' p c ps cs hc hcommit hrun ih =>
    obtain ⟨hspace, hkind⟩ := hps p List.mem_cons_self
    have hstepped := committed_of_commit hc hcommit
    have hs₁ : P.HashSound w₁.log.records := by
      rw [hrun.records] at hs
      exact hs.mono (List.subset_append_left _ _)
    exact ih (fun q hq => hps q (List.mem_cons_of_mem _ hq)) hstepped.inStep
      (hstepped.verified hfrozen hread hstep hv hspace hkind hs₁) hs

/-- Each subject is recognised as its proposal, with the verdict that was returned. -/
theorem landed (h : CommitRun P rules w s ps cs w' s') (hread : P.ReadsVerdicts) :
    List.Forall₂ (fun p c => proposalMatchesRecord p c.subject = true ∧
      P.decode VerdictData c.verdictRecord.data = some c.verdict) ps cs := by
  induction h with
  | nil => exact .nil
  | cons hc _ _ ih => exact .cons ⟨prepare_matches hc, prepare_verdict hc hread⟩ ih

/-- **A run takes one handle to the next**, through the frames of its pairs. -/
theorem handle (h : CommitRun P rules w s ps cs w' s') (hfrozen : P.Frozen rules)
    (hps : ∀ p ∈ ps, p.kind ≠ .verdict) {M : List Record} (hs : P.HashSound M)
    (hsub : cs.flatMap Prepared.pair ⊆ M) (hw : w = handleOver file intent L maxFileBytes hash) :
    ∃ bytes, P.frames (cs.flatMap Prepared.pair) = .ok bytes ∧
      w' = handleOver (file ++ bytes) (if cs = [] then intent else none)
        (L ++ cs.flatMap Prepared.pair) maxFileBytes hash ∧
      (file.length ≤ maxFileBytes → (file ++ bytes).length ≤ maxFileBytes) := by
  induction h generalizing file intent L with
  | nil => exact ⟨[], rfl, by simpa using hw, by simp⟩
  | @cons w w₁ w' s s₁ s' p c ps cs hc hcommit _ ih =>
    subst hw
    have hpair : c.pair ⊆ M := fun r hr => hsub (by simp [hr])
    obtain ⟨bs, bv, t, hbs, hbv, hroom, -, hstep⟩ := commit_handleOver hfrozen hc
      (hps p List.mem_cons_self) hs (hpair (by simp [Prepared.pair])) (hpair (by simp [Prepared.pair]))
    have hw₁ : w₁ = handleOver (file ++ Platform.frame bs ++ Platform.frame bv) none
        (L ++ [c.subject, c.verdictRecord]) maxFileBytes hash := by
      have := hcommit.symm.trans hstep
      exact congrArg Outcome.writer this
    obtain ⟨bytes, hbytes, hw', hfit⟩ := ih (fun q hq => hps q (List.mem_cons_of_mem _ hq))
      (fun r hr => hsub (by simp [hr])) hw₁
    have hpairFrames : P.frames c.pair = .ok (Platform.frame bs ++ Platform.frame bv) :=
      frames_append (L := [c.subject]).mpr ⟨_, _, frames_singleton.mpr ⟨bs, hbs, rfl⟩,
        frames_singleton.mpr ⟨bv, hbv, rfl⟩, rfl⟩
    refine ⟨Platform.frame bs ++ Platform.frame bv ++ bytes, ?_, ?_, fun _ => ?_⟩
    · rw [List.flatMap_cons]
      exact frames_append.mpr ⟨_, _, hpairFrames, hbytes, rfl⟩
    · rw [hw']
      simp [Prepared.pair]
    · simp only [List.length_append] at hfit ⊢
      omega

/-- An old intent file makes no difference to a run. -/
theorem of_intent (i j : Option Bytes)
    (h : CommitRun P rules (handleOver file i L maxFileBytes hash) s (p :: ps) cs w' s') :
    CommitRun P rules (handleOver file j L maxFileBytes hash) s (p :: ps) cs w' s' := by
  cases h with
  | cons hc hcommit hrun =>
    refine .cons hc ?_ hrun
    rw [commit_intent i j hc]
    exact hcommit

end CommitRun

/-! ## Calls on a log in which part of the batch has landed -/

/-- Pairs that have landed are matched, and the matching goes on behind them. -/
theorem matchLanded_append {A E : List Record}
    (h : List.Forall₂ (fun p c => proposalMatchesRecord p c.subject = true ∧
      P.decode VerdictData c.verdictRecord.data = some c.verdict) ps cs) (qs : List Proposal) :
    P.matchLanded (A ++ cs.flatMap Prepared.pair ++ E) A.length (ps ++ qs) =
      (P.matchLanded (A ++ cs.flatMap Prepared.pair ++ E) (A.length + 2 * cs.length) qs).map
        fun l => { l with results := cs.map Prepared.result ++ l.results } := by
  induction h generalizing A with
  | nil =>
    simp only [List.nil_append, List.length_nil, Nat.mul_zero, Nat.add_zero, List.map_nil]
    cases P.matchLanded (A ++ List.flatMap Prepared.pair [] ++ E) A.length qs <;> rfl
  | @cons p c ps cs hpc _ ih =>
    obtain ⟨hmatch, hd⟩ := hpc
    have hrecords : A ++ (c :: cs).flatMap Prepared.pair ++ E =
        (A ++ c.pair) ++ cs.flatMap Prepared.pair ++ E := by simp
    have hsubject : (A ++ (c :: cs).flatMap Prepared.pair ++ E)[A.length]? = some c.subject := by
      simp [Prepared.pair]
    have hverdict : (A ++ (c :: cs).flatMap Prepared.pair ++ E)[A.length + 1]? =
        some c.verdictRecord := by
      simp [Prepared.pair]
    have hrest := ih (A := A ++ c.pair)
    have hlen : (A ++ c.pair).length = A.length + 2 := by simp [Prepared.pair]
    have hpos : A.length + 2 + 2 * cs.length = A.length + 2 * (c :: cs).length := by
      rw [List.length_cons]
      omega
    rw [← hrecords, hlen, hpos] at hrest
    rw [List.cons_append, Platform.matchLanded]
    simp only [hsubject, hmatch, Bool.true_eq_false, if_false, hverdict, hd, orSerde, orError, hrest,
      bind, Except.bind]
    cases P.matchLanded (A ++ (c :: cs).flatMap Prepared.pair ++ E) (A.length + 2 * (c :: cs).length) qs
    · rfl
    · rfl

theorem matchLanded_end (R : List Record) (qs : List Proposal) :
    P.matchLanded R R.length qs = .ok ⟨[], qs, R.length⟩ := by
  cases qs with
  | nil => rfl
  | cons q qs => simp [Platform.matchLanded]

/-- A call whose caller has the rules and the state of the handle looks for the batch. -/
theorem checkLanded_eq {head : RecordId} {start : Nat} {landed : LandedPrefix}
    (husable : w.recoveryRequired = false) (hrules : P.sha256Canonical rules = some w.rulesHash)
    (hstate : P.buildStateUnchecked w.log.records = some s) (hstart : startAfter w head = .ok start)
    (hlanded : P.matchLanded w.log.records start (P.sortBatch ps) = .ok landed) :
    P.checkLanded rules head w s ps =
      if landed.remaining ≠ [] ∧ landed.pos ≠ w.log.records.length then
        .error (.headConflict head w.head)
      else .ok landed := by
  unfold Platform.checkLanded Platform.ensureRulesMatch Platform.ensureStateMatches
    Platform.ensureWritable
  simp only [husable, hrules, hstate, hstart, hlanded, refuseIf, orSerde, orError, bind, Except.bind,
    Bool.false_eq_true, if_false, ne_eq, not_true_eq_false]
  by_cases hconflict : ¬landed.remaining = [] ∧ ¬landed.pos = w.log.records.length
  · rw [if_pos hconflict, if_pos hconflict]
  · rw [if_neg hconflict, if_neg hconflict]
    rfl

theorem checkLanded_start_error {head : RecordId} {e : LogError}
    (husable : w.recoveryRequired = false) (hrules : P.sha256Canonical rules = some w.rulesHash)
    (hstate : P.buildStateUnchecked w.log.records = some s) (hstart : startAfter w head = .error e) :
    P.checkLanded rules head w s ps = .error e := by
  unfold Platform.checkLanded Platform.ensureRulesMatch Platform.ensureStateMatches
    Platform.ensureWritable
  simp only [husable, hrules, hstate, hstart, refuseIf, orSerde, orError, bind, Except.bind,
    Bool.false_eq_true, if_false, ne_eq, not_true_eq_false]

/-- The handle passed the checks in front of every call. -/
theorem checkLanded_ok {head : RecordId} {landed : LandedPrefix}
    (h : P.checkLanded rules head w s ps = .ok landed) : w.recoveryRequired = false ∧
      P.sha256Canonical rules = some w.rulesHash ∧ P.buildStateUnchecked w.log.records = some s := by
  unfold Platform.checkLanded Platform.ensureWritable Platform.ensureRulesMatch
    Platform.ensureStateMatches at h
  simp only [bind_eq_ok, refuseIf_eq_ok, orSerde_eq_ok, not_not, Bool.not_eq_true] at h
  obtain ⟨-, husable, -, ⟨_, hhash, rfl⟩, -, ⟨_, hbuild, rfl⟩, -⟩ := h
  exact ⟨husable, hhash, hbuild⟩

theorem getElem?_last (A : List Record) (h : A ≠ []) (E : List Record) :
    ((A ++ E)[A.length - 1]?.map Record.id).getD emptyHead = lastRecordId A := by
  have hlen : 0 < A.length := List.length_pos_iff.mpr h
  rw [List.getElem?_append_left (by omega), ← List.getLast?_eq_getElem?]
  rfl

/-- The head a fully landed batch reports. -/
theorem landed_head (A E : List Record) : (if A.length = 0 then emptyHead
    else ((A ++ E)[A.length - 1]?.map Record.id).getD emptyHead) = lastRecordId A := by
  split
  · next h =>
    rw [List.length_eq_zero_iff.mp h]
    rfl
  · next h => exact getElem?_last A (fun hnil => h (by simp [hnil])) E

/-- The handle holds the records of `w` and the first `k` pairs of what `w'` has behind them. -/
def Resumes (P : Platform) (w w' : LogWriter) (k : Nat) (u : LogWriter) : Prop :=
  ∃ bytes intent,
    P.frames ((w'.log.records.take (w.log.records.length + 2 * k)).drop w.log.records.length) =
      .ok bytes ∧
    u = handleOver (w.log.file ++ bytes) intent (w'.log.records.take (w.log.records.length + 2 * k))
      w.log.maxFileBytes w.rulesHash

/-- A call only appends. -/
theorem checkedBatchCommit_extends {head : RecordId} {O : BatchAppend}
    (h : P.checkedBatchCommit rules neverFaults head w s ps = ⟨.ok O, w', s'⟩) :
    w.recoveryRequired = false ∧ w.log.records ⊆ w'.log.records := by
  unfold Platform.checkedBatchCommit at h
  split at h
  · cases h
  next landed hlanded =>
  refine ⟨(checkLanded_ok hlanded).1, ?_⟩
  split at h
  · cases h
    exact List.Subset.refl _
  · cases ho : P.commitEach rules neverFaults w s landed.remaining with
    | mk result w₁ s₁ =>
      rw [ho] at h
      cases result with
      | error e => cases h
      | ok xs =>
        cases h
        obtain ⟨cs, hcs, -⟩ := CommitRun.of_runAll ho
        rw [hcs.records]
        exact List.subset_append_left _ _

section Batch

variable (hw : w = handleOver file intent L maxFileBytes hash) (hL : P.WriterLog L)
  (hs : P.HashSound L) (hzero : lastRecordId L = emptyHead → L = [])
include hw hL hs hzero

/-- **The first call** is a run of commits of the sorted batch. -/
theorem first_call {O : BatchAppend}
    (hrun : P.checkedBatchCommit rules neverFaults w.head w s ps = ⟨.ok O, w', s'⟩) :
    P.sha256Canonical rules = some hash ∧ P.buildStateUnchecked L = some s ∧
    ∃ cs, CommitRun P rules w s (P.sortBatch ps) cs w' s' ∧ O.results = cs.map Prepared.result ∧
      O.head = w'.head := by
  unfold Platform.checkedBatchCommit at hrun
  split at hrun
  · cases hrun
  next landed hlanded =>
  obtain ⟨husable, hrules, hstate⟩ := checkLanded_ok hlanded
  have hrecords : w.log.records = L := by rw [hw]; rfl
  have hhash : w.rulesHash = hash := by rw [hw]; rfl
  rw [hhash] at hrules
  rw [hrecords] at hstate
  have hafter : After w.head w.log.records [] := by
    have := after_head hL hs hzero []
    rwa [List.append_nil, ← hrecords] at this
  obtain ⟨start, hstart, -, hlen⟩ := startAfter_eq hafter
  rw [List.length_nil, Nat.add_zero] at hlen
  subst hlen
  have hcheck := checkLanded_eq (s := s) husable (by rw [hhash, hrules]) (by rw [hrecords, hstate])
    hstart (matchLanded_end _ (P.sortBatch ps))
  rw [if_neg (by simp), hlanded] at hcheck
  cases hcheck
  refine ⟨hrules, hstate, ?_⟩
  by_cases hnil : P.sortBatch ps = []
  · -- there is nothing to commit
    simp only [hnil, if_true] at hrun
    have hO := congrArg Outcome.result hrun
    have hw' := congrArg Outcome.writer hrun
    have hs' := congrArg Outcome.state hrun
    simp only [Except.ok.injEq] at hO hw' hs'
    subst hO hw' hs'
    refine ⟨[], hnil ▸ .nil, rfl, ?_⟩
    have := landed_head w.log.records []
    rwa [List.append_nil] at this
  · simp only [hnil, if_false] at hrun
    cases ho : P.commitEach rules neverFaults w s (P.sortBatch ps) with
    | mk result w₁ s₁ =>
      rw [ho] at hrun
      cases result with
      | error e => cases hrun
      | ok xs =>
        cases hrun
        obtain ⟨cs, hcs, rfl⟩ := CommitRun.of_runAll ho
        exact ⟨cs, hcs, rfl, rfl⟩

/-- **A call on a log in which the whole batch stands** appends nothing. -/
theorem landed_call {u : LogWriter} {su : State} {E : List Record}
    (hland : List.Forall₂ (fun p c => proposalMatchesRecord p c.subject = true ∧
      P.decode VerdictData c.verdictRecord.data = some c.verdict) (P.sortBatch qs) cs)
    (husable : u.recoveryRequired = false) (hrules : P.sha256Canonical rules = some u.rulesHash)
    (hstate : P.buildStateUnchecked u.log.records = some su)
    (hrecords : u.log.records = L ++ cs.flatMap Prepared.pair ++ E) (faults : Nat → Faults) :
    P.checkedBatchCommit rules faults w.head u su qs =
      ⟨.ok ⟨lastRecordId (L ++ cs.flatMap Prepared.pair), cs.map Prepared.result, cs.length⟩, u, su⟩ := by
  have hhead : w.head = lastRecordId L := by rw [hw]; rfl
  have hafter : After w.head u.log.records (cs.flatMap Prepared.pair ++ E) := by
    rw [hhead, hrecords, List.append_assoc]
    exact after_head hL hs hzero _
  obtain ⟨start, hstart, -, hlen⟩ := startAfter_eq hafter
  have hpos : start = L.length := by
    rw [hrecords] at hlen
    simp only [List.length_append] at hlen
    omega
  subst hpos
  have hmatch : P.matchLanded u.log.records L.length (P.sortBatch qs) =
      .ok ⟨cs.map Prepared.result, [], L.length + 2 * cs.length⟩ := by
    have := matchLanded_append (A := L) (E := E) hland []
    rw [List.append_nil, ← hrecords] at this
    rw [this, Platform.matchLanded]
    simp [Except.map]
  have hcheck := checkLanded_eq husable hrules hstate hstart hmatch
  rw [if_neg (by simp)] at hcheck
  have hlenA : L.length + 2 * cs.length = (L ++ cs.flatMap Prepared.pair).length := by
    rw [List.length_append, length_pairs]
  unfold Platform.checkedBatchCommit
  rw [hcheck]
  simp only [if_true, hlenA, List.length_map]
  rw [hrecords, landed_head]

/-- **A call on a log in which the first `k` pairs stand** finds them, and what remains of the run
starts from its handle. -/
theorem resumed_landed (hread : P.ReadsVerdicts) (hfrozen : P.Frozen rules)
    (hps : ∀ p ∈ P.sortBatch qs, p.kind ≠ .verdict)
    (hrun : CommitRun P rules w s (P.sortBatch qs) cs w' s')
    (hsall : P.HashSound (L ++ cs.flatMap Prepared.pair)) {k : Nat} (hk : k < cs.length)
    {bytes : Bytes} (hbytes : P.frames ((cs.take k).flatMap Prepared.pair) = .ok bytes)
    (intent' : Option Bytes) {su : State} (hrules : P.sha256Canonical rules = some hash)
    (hstate : P.buildStateUnchecked (L ++ (cs.take k).flatMap Prepared.pair) = some su) :
    P.checkLanded rules w.head (handleOver (file ++ bytes) intent'
        (L ++ (cs.take k).flatMap Prepared.pair) maxFileBytes hash) su qs =
      .ok ⟨(cs.take k).map Prepared.result, (P.sortBatch qs).drop k,
        (L ++ (cs.take k).flatMap Prepared.pair).length⟩ ∧
    CommitRun P rules (handleOver (file ++ bytes) intent' (L ++ (cs.take k).flatMap Prepared.pair)
      maxFileBytes hash) su ((P.sortBatch qs).drop k) (cs.drop k) w' s' := by
  have hlen := hrun.length_eq
  obtain ⟨v, t, hleft, hright⟩ := hrun.split k
  obtain ⟨bytes', hbytes', hv, -⟩ := hleft.handle hfrozen
    (fun p hp => hps p (List.mem_of_mem_take hp)) hsall (take_pairs_subset L cs k) hw
  obtain rfl : bytes' = bytes := Except.ok.inj (hbytes'.symm.trans hbytes)
  -- the remaining run starts in the state of the log
  obtain ⟨q, qs', hdrop⟩ : ∃ q qs', (P.sortBatch qs).drop k = q :: qs' :=
    List.exists_cons_of_ne_nil (by simp only [ne_eq, List.drop_eq_nil_iff]; omega)
  rw [hdrop, hv] at hright
  obtain rfl : t = su := by
    generalize cs.drop k = rest at hright
    cases hright with
    | cons hc _ _ =>
      have hbuild := (prepare_eq_ok hc).state
      exact Option.some.inj (hbuild.symm.trans hstate)
  refine ⟨?_, hdrop ▸ hright.of_intent _ intent'⟩
  have hhead : w.head = lastRecordId L := by rw [hw]; rfl
  have hafter : After w.head (L ++ (cs.take k).flatMap Prepared.pair)
      ((cs.take k).flatMap Prepared.pair) := by
    rw [hhead]
    exact after_head hL hs hzero _
  obtain ⟨start, hstart, -, hend⟩ := startAfter_eq (w := handleOver (file ++ bytes') intent'
    (L ++ (cs.take k).flatMap Prepared.pair) maxFileBytes hash) hafter
  have hpos : start = L.length := by
    change start + _ = (L ++ (cs.take k).flatMap Prepared.pair).length at hend
    rw [List.length_append] at hend
    omega
  subst hpos
  have hlenA : L.length + 2 * (cs.take k).length = (L ++ (cs.take k).flatMap Prepared.pair).length := by
    rw [List.length_append, length_pairs]
  have hmatch : P.matchLanded (L ++ (cs.take k).flatMap Prepared.pair) L.length (P.sortBatch qs) =
      .ok ⟨(cs.take k).map Prepared.result, (P.sortBatch qs).drop k,
        (L ++ (cs.take k).flatMap Prepared.pair).length⟩ := by
    have := matchLanded_append (A := L) (E := []) (hleft.landed hread) ((P.sortBatch qs).drop k)
    rw [List.take_append_drop, List.append_nil, hlenA, matchLanded_end] at this
    rw [this]
    simp [Except.map]
  have hcheck := checkLanded_eq (w := handleOver (file ++ bytes') intent'
    (L ++ (cs.take k).flatMap Prepared.pair) maxFileBytes hash) rfl hrules hstate hstart hmatch
  rw [if_neg (fun h => h.2 rfl)] at hcheck
  exact hcheck

end Batch

/-- What `checked_batch_commit` does once it has found what landed. -/
theorem checkedBatchCommit_eq {head : RecordId} {landed : LandedPrefix} (faults : Nat → Faults)
    (h : P.checkLanded rules head w s qs = .ok landed) (hne : landed.remaining ≠ []) :
    P.checkedBatchCommit rules faults head w s qs =
      let o := P.commitEach rules faults w s landed.remaining
      ⟨o.result.map fun results =>
        ⟨o.writer.head, landed.results ++ results, landed.results.length⟩, o.writer, o.state⟩ := by
  unfold Platform.checkedBatchCommit
  rw [h]
  simp only [hne, if_false]


/-! ## Crashes -/

theorem eq_noFaults {faults : Faults} (hi : faults .intent = none) (hs : faults .subject = none)
    (hw : faults .written = none) (hv : faults .verdict = none) (hc : faults .clear = none) :
    faults = noFaults := by
  funext step
  cases step <;> assumption

theorem append_fault {r : Record} {body : Bytes} (n : Nat)
    (hbody : P.encodeRecord r = .ok body)
    (hroom : file.length + (Platform.frame body).length ≤ maxFileBytes)
    (hword : file.length + (Platform.frame body).length < 18446744073709551616) :
    P.append (fileLogOver file intent L maxFileBytes) (some n) r =
      (.error .io, { fileLogOver file intent L maxFileBytes with
        file := file ++ (Platform.frame body).take n }) := by
  have hcap : P.ensureCapacityFor (fileLogOver file intent L maxFileBytes) [r] = .ok () :=
    ensureCapacityFor_eq_ok.mpr ⟨_, frames_singleton.mpr ⟨body, hbody, rfl⟩, hroom, hword⟩
  unfold Platform.append
  rw [hbody, hcap]
  rfl

/-- A failing write of the intent file leaves everything else as it is. -/
theorem writeIntent_cases (log : FileLog) (fault : Option Nat) (i : CommitIntent) :
    (∃ e b, P.writeIntent log fault i = (.error e, { log with intent := b })) ∨
      (fault = none ∧ ∃ b, P.writeIntent log fault i = (.ok (), { log with intent := some b })) := by
  obtain ⟨b, hb⟩ := canonicalJson_intent (P := P) i
  unfold Platform.writeIntent
  rw [hb]
  rcases fault with _ | _ | n
  · exact .inr ⟨rfl, b, rfl⟩
  · exact .inl ⟨_, log.intent, rfl⟩
  · exact .inl ⟨_, some b, rfl⟩

theorem clearIntent_fault (log : FileLog) (n : Nat) :
    ∃ e log', Platform.clearIntent log (some n) = (.error e, log') ∧ log'.file = log.file := by
  cases n with
  | zero => exact ⟨_, _, rfl, rfl⟩
  | succ n => exact ⟨_, _, rfl, rfl⟩

/-- **What a failing durable phase leaves in the file**: a prefix of the two frames. -/
theorem writePair_faults {bs bv : Bytes} (hbs : P.encodeRecord c.subject = .ok bs)
    (hbv : P.encodeRecord c.verdictRecord = .ok bv)
    (hroom : file.length + ((Platform.frame bs).length + (Platform.frame bv).length) ≤ maxFileBytes)
    (hword : file.length + ((Platform.frame bs).length + (Platform.frame bv).length) <
      18446744073709551616) (faults : Faults) :
    (faults .subject = none ∧ faults .written = none ∧ faults .verdict = none ∧
        faults .clear = none) ∨
      ∃ e log' left, P.writePair (fileLogOver file intent L maxFileBytes) faults c = (.error e, log') ∧
        left <+: Platform.frame bs ++ Platform.frame bv ∧ log'.file = file ++ left := by
  unfold Platform.writePair
  rcases hsub : faults .subject with _ | n
  swap
  · rw [append_fault n hbs (by omega) (by omega)]
    exact .inr ⟨_, _, _, rfl, (List.take_prefix _ _).trans (List.prefix_append _ _), rfl⟩
  rw [append_fileLogOver _ hbs (by omega) (by omega)]
  simp only
  have hleft : Platform.frame bs <+: Platform.frame bs ++ Platform.frame bv := List.prefix_append _ _
  rcases writeIntent_cases (P := P) (fileLogOver (file ++ Platform.frame bs) intent
      (L ++ [c.subject]) maxFileBytes) (faults .written) ⟨c.subject.id, true⟩ with
    ⟨e, b, hwritten⟩ | ⟨hwrittenFault, b, hwritten⟩
  · rw [hwritten]
    exact .inr ⟨_, _, _, rfl, hleft, rfl⟩
  rw [hwritten]
  simp only
  have hlog : { fileLogOver (file ++ Platform.frame bs) intent (L ++ [c.subject]) maxFileBytes with
      intent := some b } =
    fileLogOver (file ++ Platform.frame bs) (some b) (L ++ [c.subject]) maxFileBytes := rfl
  have hlen : (file ++ Platform.frame bs).length = file.length + (Platform.frame bs).length :=
    List.length_append
  rw [hlog]
  rcases hver : faults .verdict with _ | n
  swap
  · rw [append_fault n hbv (by omega) (by omega)]
    refine .inr ⟨_, _, _, rfl, (List.prefix_append_right_inj _).mpr (List.take_prefix n _), ?_⟩
    simp
  rw [append_fileLogOver _ hbv (by omega) (by omega)]
  simp only
  rcases hclear : faults .clear with _ | n
  swap
  · obtain ⟨e, log', herror, hfile⟩ := clearIntent_fault (fileLogOver
      (file ++ Platform.frame bs ++ Platform.frame bv) (some b)
      (L ++ [c.subject] ++ [c.verdictRecord]) maxFileBytes) n
    refine .inr ⟨_, _, _, herror, List.prefix_refl _, ?_⟩
    rw [hfile, ← List.append_assoc]
    rfl
  exact .inl (by simp [hwrittenFault])

/-- A commit one of whose writes fails leaves a prefix of its two frames behind the file. Its handle
is closed, or the one it started from but for the intent file. -/
theorem commit_faults
    (hprep : P.prepare rules none (handleOver file intent L maxFileBytes hash) s p = .ok c)
    {bs bv : Bytes} (hbs : P.encodeRecord c.subject = .ok bs)
    (hbv : P.encodeRecord c.verdictRecord = .ok bv)
    (hroom : file.length + ((Platform.frame bs).length + (Platform.frame bv).length) ≤ maxFileBytes)
    (hword : file.length + ((Platform.frame bs).length + (Platform.frame bv).length) <
      18446744073709551616) (faults : Faults) :
    faults = noFaults ∨ ∃ e u left,
      P.commit rules faults (handleOver file intent L maxFileBytes hash) s p = ⟨.error e, u, s⟩ ∧
        left <+: Platform.frame bs ++ Platform.frame bv ∧ u.log.file = file ++ left ∧
        (u.recoveryRequired = true ∨ ∃ i, u = handleOver file i L maxFileBytes hash) := by
  have hcommit : P.commit rules faults (handleOver file intent L maxFileBytes hash) s p =
      P.persist faults (handleOver file intent L maxFileBytes hash) s c := commitInner_of_prepare hprep
  rw [hcommit, Platform.persist]
  rcases writeIntent_cases (P := P) (handleOver file intent L maxFileBytes hash).log (faults .intent)
    ⟨c.subject.id, false⟩ with ⟨e, b, hintent⟩ | ⟨hintentFault, b, hintent⟩
  · rw [hintent]
    refine .inr ⟨_, _, [], rfl, List.nil_prefix, ?_, .inr ⟨b, rfl⟩⟩
    rw [List.append_nil]
    rfl
  rw [hintent]
  simp only
  rcases writePair_faults hbs hbv hroom hword faults with
    ⟨hsub, hwr, hver, hcl⟩ | ⟨e, log', left, hpair, hleft, hfile⟩
  · exact .inl (eq_noFaults hintentFault hsub hwr hver hcl)
  · have hpair' : P.writePair { (handleOver file intent L maxFileBytes hash).log with
        intent := some b } faults c = (.error e, log') := hpair
    rw [hpair']
    exact .inr ⟨_, _, left, rfl, hleft, hfile, .inl rfl⟩

/-- A handle over the records and the first pairs of a run. -/
def Cut (P : Platform) (file : Bytes) (L : List Record) (maxFileBytes : Nat) (hash : Hash256)
    (cs : List Prepared) (u : LogWriter) : Prop :=
  ∃ j bytes intent, j ≤ cs.length ∧ P.frames ((cs.take j).flatMap Prepared.pair) = .ok bytes ∧
    u = handleOver (file ++ bytes) intent (L ++ (cs.take j).flatMap Prepared.pair) maxFileBytes hash

section Cut

variable {u : LogWriter}

theorem Cut.zero (intent : Option Bytes) :
    Cut P file L maxFileBytes hash cs (handleOver file intent L maxFileBytes hash) :=
  ⟨0, [], intent, Nat.zero_le _, rfl, by simp⟩

/-- What is behind the first pairs. -/
theorem Cut.shift {bytes : Bytes} {k : Nat} (hk : k ≤ cs.length)
    (hbytes : P.frames ((cs.take k).flatMap Prepared.pair) = .ok bytes)
    (h : Cut P (file ++ bytes) (L ++ (cs.take k).flatMap Prepared.pair) maxFileBytes hash
      (cs.drop k) u) :
    Cut P file L maxFileBytes hash cs u := by
  obtain ⟨j, rest, intent, hj, hrest, rfl⟩ := h
  have htake : cs.take (k + j) = cs.take k ++ (cs.drop k).take j := List.take_add
  rw [List.length_drop] at hj
  refine ⟨k + j, bytes ++ rest, intent, by omega, ?_, ?_⟩
  · rw [htake, List.flatMap_append]
    exact frames_append.mpr ⟨_, _, hbytes, hrest, rfl⟩
  · rw [htake, List.flatMap_append, List.append_assoc, List.append_assoc]

end Cut

/-- Opening the directory that a call leaves, and going on with its handle. -/
structure Survives (P : Platform) (rules : VerifierRules) (maxFileBytes : Nat)
    (Good : LogWriter → Prop) (u : LogWriter) : Prop where
  reopens : ∀ intent, ∃ v, P.openWithMaxBytes rules u.log.file intent maxFileBytes = .ok v ∧ Good v
  continues : u.recoveryRequired = false → Good u

/-- **A batch that fails anywhere** leaves the first pairs of its run. -/
theorem CommitRun.survives (h : CommitRun P rules w s ps cs w' s') (hfrozen : P.Frozen rules)
    (hread : P.ReadsVerdicts) (hps : ∀ p ∈ ps, p.space = rules.space ∧ p.kind ≠ .verdict)
    (hw : w = handleOver file intent L maxFileBytes hash) (hv : Verified P rules L s)
    (hfile : P.frames L = .ok file) (hfit : file.length ≤ maxFileBytes)
    (hrules : P.sha256Canonical rules = some hash)
    (hreads : P.ReadsRecords (L ++ cs.flatMap Prepared.pair))
    (hs : P.HashSound (L ++ cs.flatMap Prepared.pair)) (faults : Nat → Faults) (k : Nat) :
    Survives P rules maxFileBytes (Cut P file L maxFileBytes hash cs)
      (runAll (P.commitAt rules faults) w s (ps.zipIdx k)).writer := by
  induction h generalizing file intent L k with
  | nil =>
    subst hw
    rw [List.flatMap_nil, List.append_nil] at hreads
    refine ⟨fun i => ⟨_, open_exact hrules hfit i hv hreads hfile, .zero none⟩, fun _ => .zero intent⟩
  | @cons w w₁ w' s s₁ s' p c ps cs hc hcommit _ ih =>
    subst hw
    obtain ⟨hspace, hkind⟩ := hps p List.mem_cons_self
    have hall : L ++ (c :: cs).flatMap Prepared.pair =
        L ++ [c.subject, c.verdictRecord] ++ cs.flatMap Prepared.pair := by simp [Prepared.pair]
    rw [hall] at hreads hs
    have hreads₁ := hreads.mono (List.subset_append_left _ _)
    have hs₁ := hs.mono (List.subset_append_left _ _)
    obtain ⟨bs, bv, t, hbs, hbv, hstep, hv₁, hopen⟩ :=
      commit_recovers hfrozen hread hv hfile hc hspace hkind hreads₁ hs₁
    obtain ⟨bs', bv', -, hbs', hbv', hroom, hword, -⟩ :=
      commit_handleOver hfrozen hc hkind hs₁ (by simp) (by simp)
    obtain rfl : bs = bs' := Except.ok.inj (hbs.symm.trans hbs')
    obtain rfl : bv = bv' := Except.ok.inj (hbv.symm.trans hbv')
    have hpair : P.frames (((c :: cs).take 1).flatMap Prepared.pair) =
        .ok (Platform.frame bs ++ Platform.frame bv) := by
      have hone : ((c :: cs).take 1).flatMap Prepared.pair = [c.subject] ++ [c.verdictRecord] := by
        simp [Prepared.pair]
      rw [hone]
      exact frames_append.mpr ⟨_, _, frames_singleton.mpr ⟨bs, hbs, rfl⟩,
        frames_singleton.mpr ⟨bv, hbv, rfl⟩, rfl⟩
    have hcut {u : LogWriter} (h : Cut P (file ++ Platform.frame bs ++ Platform.frame bv)
        (L ++ [c.subject, c.verdictRecord]) maxFileBytes hash cs u) :
        Cut P file L maxFileBytes hash (c :: cs) u := by
      refine Cut.shift (k := 1) (by simp) hpair ?_
      rw [List.append_assoc] at h
      simpa [Prepared.pair] using h
    rw [List.zipIdx_cons]
    rcases commit_faults hc hbs hbv hroom hword (faults k) with hnone | ⟨e, u, left, herror, hleft, hufile, hu⟩
    · -- this commit succeeds, and the failure is behind it
      have hnext : P.commit rules (faults k) (handleOver file intent L maxFileBytes hash) s p =
          ⟨.ok c.result, w₁, s₁⟩ := by rw [hnone, hcommit]
      have heq : Outcome.mk (.ok c.result) w₁ s₁ = _ := hcommit.symm.trans hstep
      obtain ⟨-, hw₁, rfl⟩ := Outcome.mk.inj heq
      rw [runAll_cons_ok (commitAt_ok hnext)]
      have hframes : P.frames (L ++ [c.subject, c.verdictRecord]) =
          .ok (file ++ Platform.frame bs ++ Platform.frame bv) := by
        rw [List.append_assoc]
        refine frames_append.mpr ⟨_, _, hfile, ?_, rfl⟩
        simpa [Prepared.pair] using hpair
      have hfit₁ : (file ++ Platform.frame bs ++ Platform.frame bv).length ≤ maxFileBytes := by
        simp only [List.length_append]
        omega
      obtain ⟨hreopen, hgo⟩ := ih (fun q hq => hps q (List.mem_cons_of_mem _ hq)) hw₁ hv₁ hframes hfit₁
        hreads hs (k + 1)
      exact ⟨fun i => (hreopen i).imp fun v hv => ⟨hv.1, hcut hv.2⟩, fun h => hcut (hgo h)⟩
    · rw [runAll_cons_error (commitAt_error herror)]
      refine ⟨fun i => ⟨_, by rw [hufile]; exact hopen left hleft i, ?_⟩, ?_⟩
      · split
        · exact .zero none
        · exact hcut (.zero none)
      · intro husable
        rcases hu with hclosed | ⟨i, rfl⟩
        · rw [show u.recoveryRequired = false from husable] at hclosed
          cases hclosed
        · exact .zero i

/-! ## Retries -/

/-- The handles from which the batch is tried again: a call has failed or not, in any of its writes,
and its directory is opened again, or its handle is still usable. -/
inductive Retries (P : Platform) (rules : VerifierRules) (w : LogWriter) (ps : List Proposal) :
    LogWriter → Prop
  | first : Retries P rules w ps w
  | crash {u v : LogWriter} {su : State} {qs : List Proposal} (faults : Nat → Faults)
      (intent : Option Bytes) : Retries P rules w ps u → P.buildStateUnchecked u.log.records = some su →
      qs.Perm ps → P.openWithMaxBytes rules
        (P.checkedBatchCommit rules faults w.head u su qs).writer.log.file intent
        w.log.maxFileBytes = .ok v → Retries P rules w ps v
  | again {u : LogWriter} {su : State} {qs : List Proposal} (faults : Nat → Faults) :
      Retries P rules w ps u → P.buildStateUnchecked u.log.records = some su → qs.Perm ps →
      (P.checkedBatchCommit rules faults w.head u su qs).writer.recoveryRequired = false →
      Retries P rules w ps (P.checkedBatchCommit rules faults w.head u su qs).writer

/-- What the call of a batch on the handle `w`, which gave `O` and the handle `w'`, means for all
later calls of the same batch with the same head. -/
structure ExactlyOnce (P : Platform) (rules : VerifierRules) (w : LogWriter) (ps : List Proposal)
    (O : BatchAppend) (w' : LogWriter) : Prop where
  /-- Two records a proposal. -/
  appended : ∃ X, w'.log.records = w.log.records ++ X ∧ X.length = 2 * ps.length
  /-- The first pairs are there: the others are appended. -/
  resumed : ∀ k ≤ ps.length, ∀ u su qs, Resumes P w w' k u →
    P.buildStateUnchecked u.log.records = some su → qs.Perm ps → ∃ u' su',
      P.checkedBatchCommit rules neverFaults w.head u su qs = ⟨.ok ⟨O.head, O.results, k⟩, u', su'⟩ ∧
        u'.log.records = w'.log.records
  /-- The batch is there: nothing is appended, whatever was appended after it. -/
  landed : ∀ u su qs E faults, u.log.records = w'.log.records ++ E → u.recoveryRequired = false →
    P.sha256Canonical rules = some u.rulesHash → P.buildStateUnchecked u.log.records = some su →
    qs.Perm ps → P.checkedBatchCommit rules faults w.head u su qs =
      ⟨.ok ⟨O.head, O.results, ps.length⟩, u, su⟩
  /-- Something else is there: the call is refused. -/
  conflict : ∀ u su qs faults, Opened P u → u.recoveryRequired = false →
    P.sha256Canonical rules = some u.rulesHash → P.buildStateUnchecked u.log.records = some su →
    qs.Perm ps → ((w.head ≠ emptyHead ∧ ∀ r ∈ u.log.records, r.id ≠ w.head) ∨
      ∃ T, After w.head u.log.records T ∧ ¬Landed (P.sortBatch ps) T ∧
        ∀ k, Landed ((P.sortBatch ps).take k) T → T.length ≠ 2 * k) →
    P.checkedBatchCommit rules faults w.head u su qs = ⟨.error (.headConflict w.head u.head), u, su⟩
  /-- Crashes and retries lead to handles with the first pairs, if the directory can be opened. -/
  retried : ∀ intent v, P.openWithMaxBytes rules w.log.file intent w.log.maxFileBytes = .ok v →
    P.frames w.log.records = .ok w.log.file → P.ReadsRecords w'.log.records →
    ∀ u, Retries P rules w ps u → (∃ k ≤ ps.length, Resumes P w w' k u) ∧
      ∃ su, P.buildStateUnchecked u.log.records = some su ∧ ∀ qs faults i, qs.Perm ps →
        ∃ v, P.openWithMaxBytes rules
          (P.checkedBatchCommit rules faults w.head u su qs).writer.log.file i w.log.maxFileBytes = .ok v

/-- A call on a log that has something else behind the head, or not the head at all. -/
theorem refused_call {head : RecordId} (hL : P.WriterLog w.log.records)
    (hps : ∀ p ∈ P.sortBatch qs, p.kind ≠ .verdict) (husable : w.recoveryRequired = false)
    (hrules : P.sha256Canonical rules = some w.rulesHash)
    (hstate : P.buildStateUnchecked w.log.records = some s)
    (h : (head ≠ emptyHead ∧ ∀ r ∈ w.log.records, r.id ≠ head) ∨
      ∃ T, After head w.log.records T ∧ ¬Landed (P.sortBatch qs) T ∧
        ∀ k, Landed ((P.sortBatch qs).take k) T → T.length ≠ 2 * k) (faults : Nat → Faults) :
    P.checkedBatchCommit rules faults head w s qs = ⟨.error (.headConflict head w.head), w, s⟩ := by
  have hcheck : P.checkLanded rules head w s qs = .error (.headConflict head w.head) := by
    rcases h with ⟨hne, hmissing⟩ | ⟨T, hafter, hnot, hend⟩
    · exact checkLanded_start_error husable hrules hstate (startAfter_missing hne hmissing)
    · obtain ⟨start, hstart, hdrop, hlen⟩ := startAfter_eq hafter
      obtain ⟨m, results, hm, hmatch, hlanded⟩ := matchLanded_ok hL hps start
      rw [hdrop] at hlanded
      rw [checkLanded_eq husable hrules hstate hstart hmatch, if_pos]
      refine ⟨?_, ?_⟩
      · intro hnil
        rw [List.take_of_length_le (List.drop_eq_nil_iff.mp hnil)] at hlanded
        exact hnot hlanded
      · intro hpos
        have hpos' : start + 2 * m = w.log.records.length := hpos
        exact hend m hlanded (by omega)
  unfold Platform.checkedBatchCommit
  rw [hcheck]

theorem Resumes.cut_iff {k : Nat} {u : LogWriter} (hw' : w'.log.records = w.log.records ++ cs.flatMap Prepared.pair) :
    Resumes P w w' k u ↔ ∃ bytes intent, P.frames ((cs.take k).flatMap Prepared.pair) = .ok bytes ∧
      u = handleOver (w.log.file ++ bytes) intent
        (w.log.records ++ (cs.take k).flatMap Prepared.pair) w.log.maxFileBytes w.rulesHash := by
  have htake : w'.log.records.take (w.log.records.length + 2 * k) =
      w.log.records ++ (cs.take k).flatMap Prepared.pair := by
    rw [hw', List.take_length_add_append, take_pairs]
  unfold Resumes
  rw [htake, List.drop_left]

/-- What the first call of a batch establishes. -/
structure FirstCall (P : Platform) (rules : VerifierRules) (w : LogWriter) (s : State)
    (ps : List Proposal) (cs : List Prepared) (w' : LogWriter) (s' : State) : Prop where
  handle : w = handleOver w.log.file w.log.intent w.log.records w.log.maxFileBytes w.rulesHash
  writerLog : P.WriterLog w.log.records
  start : lastRecordId w.log.records = emptyHead → w.log.records = []
  rulesHash : P.sha256Canonical rules = some w.rulesHash
  state : P.buildStateUnchecked w.log.records = some s
  run : CommitRun P rules w s (P.sortBatch ps) cs w' s'
  batch : ∀ p ∈ P.sortBatch ps, p.space = rules.space ∧ p.kind ≠ .verdict
  sound : P.HashSound (w.log.records ++ cs.flatMap Prepared.pair)

namespace FirstCall

variable {u : LogWriter} {su : State} {k : Nat} (h : FirstCall P rules w s ps cs w' s')
  (hfrozen : P.Frozen rules) (hread : P.ReadsVerdicts)
include h

theorem records : w'.log.records = w.log.records ++ cs.flatMap Prepared.pair := h.run.records

theorem soundStart : P.HashSound w.log.records := h.sound.mono (List.subset_append_left _ _)

include hread in
/-- A call on a log in which the whole batch stands. -/
theorem landed (hsame : P.sortBatch qs = P.sortBatch ps) (husable : u.recoveryRequired = false)
    (hrules : P.sha256Canonical rules = some u.rulesHash)
    (hstate : P.buildStateUnchecked u.log.records = some su) {E : List Record}
    (hrecords : u.log.records = w'.log.records ++ E) (faults : Nat → Faults) :
    P.checkedBatchCommit rules faults w.head u su qs =
      ⟨.ok ⟨w'.head, cs.map Prepared.result, cs.length⟩, u, su⟩ := by
  have hhead : w'.head = lastRecordId (w.log.records ++ cs.flatMap Prepared.pair) := by
    rw [← h.records]
    rfl
  rw [hhead]
  exact landed_call h.handle h.writerLog h.soundStart h.start (hsame ▸ h.run.landed hread) husable
    hrules hstate (by rw [hrecords, h.records]) faults

theorem take_all : w.log.records ++ (cs.take cs.length).flatMap Prepared.pair = w'.log.records := by
  rw [List.take_length, h.records]

include hread in
theorem landed_end (hsame : P.sortBatch qs = P.sortBatch ps) {bytes : Bytes} {intent : Option Bytes}
    (hstate : P.buildStateUnchecked (w.log.records ++ (cs.take cs.length).flatMap Prepared.pair) = some su)
    (faults : Nat → Faults) :
    P.checkedBatchCommit rules faults w.head (handleOver (w.log.file ++ bytes) intent
        (w.log.records ++ (cs.take cs.length).flatMap Prepared.pair) w.log.maxFileBytes w.rulesHash) su qs =
      ⟨.ok ⟨w'.head, cs.map Prepared.result, cs.length⟩, handleOver (w.log.file ++ bytes) intent
        (w.log.records ++ (cs.take cs.length).flatMap Prepared.pair) w.log.maxFileBytes w.rulesHash,
        su⟩ := by
  have husable : (handleOver (w.log.file ++ bytes) intent
      (w.log.records ++ (cs.take cs.length).flatMap Prepared.pair) w.log.maxFileBytes
      w.rulesHash).recoveryRequired = false := rfl
  refine h.landed hread hsame husable h.rulesHash hstate (E := []) ?_ faults
  rw [List.append_nil]
  exact h.take_all

include hfrozen hread in
/-- A call on a log in which the first pairs stand. -/
theorem resumed (hsame : P.sortBatch qs = P.sortBatch ps) (hk : k ≤ cs.length)
    (hu : Resumes P w w' k u) (hstate : P.buildStateUnchecked u.log.records = some su) :
    ∃ u' su', P.checkedBatchCommit rules neverFaults w.head u su qs =
      ⟨.ok ⟨w'.head, cs.map Prepared.result, k⟩, u', su'⟩ ∧ u'.log.records = w'.log.records := by
  obtain ⟨bytes, intent', hbytes, rfl⟩ := (Resumes.cut_iff h.records).mp hu
  rcases hk.lt_or_eq with hlt | rfl
  · obtain ⟨hcheck, hrest⟩ := resumed_landed h.handle h.writerLog h.soundStart h.start hread hfrozen
      (hsame ▸ fun p hp => (h.batch p hp).2) (hsame ▸ h.run) h.sound hlt hbytes intent' h.rulesHash hstate
    refine ⟨w', s', ?_, rfl⟩
    have heach : P.commitEach rules neverFaults (handleOver (w.log.file ++ bytes) intent'
        (w.log.records ++ (cs.take k).flatMap Prepared.pair) w.log.maxFileBytes w.rulesHash) su
        ((P.sortBatch qs).drop k) = ⟨.ok ((cs.drop k).map Prepared.result), w', s'⟩ := hrest.runAll_eq 0
    have hne : (P.sortBatch qs).drop k ≠ [] := by
      have := h.run.length_eq
      rw [hsame, ne_eq, List.drop_eq_nil_iff]
      omega
    rw [checkedBatchCommit_eq neverFaults hcheck hne]
    simp only [heach, Except.map, ← List.map_append, List.take_append_drop, List.length_map,
      List.length_take, Nat.min_eq_left hlt.le]
  · exact ⟨_, _, h.landed_end hread hsame hstate neverFaults, h.take_all⟩

include hfrozen in
theorem fits {bytes : Bytes} (hbytes : P.frames ((cs.take k).flatMap Prepared.pair) = .ok bytes)
    (hfit : w.log.file.length ≤ w.log.maxFileBytes) :
    (w.log.file ++ bytes).length ≤ w.log.maxFileBytes := by
  obtain ⟨u, t, hleft, -⟩ := h.run.split k
  obtain ⟨bytes', hbytes', -, hfits⟩ := hleft.handle hfrozen
    (fun p hp => (h.batch p (List.mem_of_mem_take hp)).2) h.sound (take_pairs_subset _ cs k) h.handle
  obtain rfl : bytes' = bytes := Except.ok.inj (hbytes'.symm.trans hbytes)
  exact hfits hfit

section Retry

variable (hv : Verified P rules w.log.records s) (hfile : P.frames w.log.records = .ok w.log.file)
  (hfit : w.log.file.length ≤ w.log.maxFileBytes) (hreads : P.ReadsRecords w'.log.records)
include hfrozen hread hv

/-- The state of the log after the first pairs. -/
theorem verified_take (k : Nat) :
    ∃ t, Verified P rules (w.log.records ++ (cs.take k).flatMap Prepared.pair) t := by
  obtain ⟨u, t, hleft, -⟩ := h.run.split k
  refine ⟨t, ?_⟩
  have hstep : w.InStep := by
    rw [h.handle]
    rfl
  have hrecords := hleft.records
  rw [← hrecords]
  refine hleft.verified hfrozen hread (fun p hp => h.batch p (List.mem_of_mem_take hp)) hstep hv ?_
  rw [hrecords]
  refine h.sound.mono ?_
  conv_rhs => rw [← List.take_append_drop k cs, List.flatMap_append, ← List.append_assoc]
  exact List.subset_append_left _ _

include hfile hfit hreads

/-- **A call of the batch that fails anywhere** leaves the first pairs. -/
theorem survives (hsame : P.sortBatch qs = P.sortBatch ps) (hk : k ≤ cs.length)
    (hu : Resumes P w w' k u) (hstate : P.buildStateUnchecked u.log.records = some su)
    (faults : Nat → Faults) :
    Survives P rules w.log.maxFileBytes (fun v => ∃ j ≤ cs.length, Resumes P w w' j v)
      (P.checkedBatchCommit rules faults w.head u su qs).writer := by
  obtain ⟨bytes, intent', hbytes, rfl⟩ := (Resumes.cut_iff h.records).mp hu
  obtain ⟨t, ht⟩ := h.verified_take hfrozen hread hv k
  obtain rfl : t = su := Option.some.inj (ht.run.build.symm.trans hstate)
  have hframes : P.frames (w.log.records ++ (cs.take k).flatMap Prepared.pair) =
      .ok (w.log.file ++ bytes) := frames_append.mpr ⟨_, _, hfile, hbytes, rfl⟩
  have hall : w.log.records ++ (cs.take k).flatMap Prepared.pair ++
      (cs.drop k).flatMap Prepared.pair = w'.log.records := by
    rw [List.append_assoc, ← List.flatMap_append, List.take_append_drop, h.records]
  have hgood {v : LogWriter} (hcut : Cut P w.log.file w.log.records w.log.maxFileBytes w.rulesHash cs v) :
      ∃ j ≤ cs.length, Resumes P w w' j v := by
    obtain ⟨j, bytes, i, hj, hcut⟩ := hcut
    exact ⟨j, hj, (Resumes.cut_iff h.records).mpr ⟨bytes, i, hcut⟩⟩
  have hfit' := h.fits hfrozen hbytes hfit
  rcases hk.lt_or_eq with hlt | rfl
  · obtain ⟨hcheck, hrest⟩ := resumed_landed h.handle h.writerLog h.soundStart h.start hread hfrozen
      (hsame ▸ fun p hp => (h.batch p hp).2) (hsame ▸ h.run) h.sound hlt hbytes intent' h.rulesHash hstate
    have hne : (P.sortBatch qs).drop k ≠ [] := by
      have := h.run.length_eq
      rw [hsame, ne_eq, List.drop_eq_nil_iff]
      omega
    rw [checkedBatchCommit_eq faults hcheck hne]
    obtain ⟨hreopen, hgo⟩ := hrest.survives hfrozen hread
      (fun p hp => h.batch p (hsame ▸ List.mem_of_mem_drop hp)) rfl ht hframes hfit' h.rulesHash
      (hall ▸ hreads) (hall ▸ h.records ▸ h.sound) faults 0
    exact ⟨fun i => (hreopen i).imp fun v hv => ⟨hv.1, hgood (hv.2.shift hk hbytes)⟩,
      fun husable => hgood ((hgo husable).shift hk hbytes)⟩
  · rw [h.landed_end hread hsame hstate faults]
    refine ⟨fun i => ⟨_, open_exact h.rulesHash hfit' i ht (h.take_all ▸ hreads) hframes, ?_⟩, fun _ => ?_⟩
    · exact hgood ⟨cs.length, bytes, none, Nat.le_refl _, hbytes, rfl⟩
    · exact hgood ⟨cs.length, bytes, intent', Nat.le_refl _, hbytes, rfl⟩

end Retry

end FirstCall

/-- What opening the directory of a writer says about its log. -/
theorem accepts_of_open (hL : P.WriterLog L) (hread : P.ReadsRecords L) (hfile : P.frames L = .ok file)
    (hopen : P.openWithMaxBytes rules file intent maxFileBytes = .ok w) :
    P.Accepts rules L ∧ file.length ≤ maxFileBytes := by
  have hfit := (openWithMaxBytes_fits hopen).1
  refine ⟨?_, hfit⟩
  have htail : Platform.unverdictedTail L = none := by
    cases hlast : L.getLast? with
    | none => simp [Platform.unverdictedTail, hlast]
    | some v =>
      rw [List.getLast?_eq_getElem?] at hlast
      obtain ⟨hlt, hv⟩ := List.getElem?_eq_some_iff.mp hlast
      have heven := hL.even
      have hkind := (hL.verdicts _ hlt (by omega)).1
      rw [hv] at hkind
      simp [Platform.unverdictedTail, List.getLast?_eq_getElem?, hlast, hkind]
  have hfile' := openFile_frames hread hfile torn_nil (by simpa using hfit) intent
  rw [List.append_nil] at hfile'
  unfold Platform.openWithMaxBytes at hopen
  rw [hfile'] at hopen
  simp only [bind_eq_ok, requireValidLog_eq_ok] at hopen
  obtain ⟨log, hlog, -, hacc, -⟩ := hopen
  cases hlog
  simpa [fileLogOver, htail] using hacc

theorem reference_sortsUnstable : reference.SortsUnstable := fun _ le htotal htrans as =>
  ⟨List.mergeSort_perm as le, List.pairwise_mergeSort htrans htotal as⟩

theorem collisionFree_single (p : Proposal) : P.CollisionFree ([p].filterMap P.canonicalJson) := by
  obtain ⟨bytes, hbytes⟩ := canonicalJson_proposal (P := P) p
  rw [List.filterMap_cons_some hbytes, List.filterMap_nil]
  simp [Platform.CollisionFree]

/-- The batch of one stray proposal, on the empty sample directory. -/
theorem strayBatch_commit : ∃ O w' s', reference.checkedBatchCommit sampleRules neverFaults
    sampleHandle.head sampleHandle State.empty [strayProposal 1] = ⟨.ok O, w', s'⟩ ∧
      w'.log.records = strayLog := by
  obtain ⟨id, w', s', hcommit, hrecords⟩ := strayProposal_commit
  have hsorted : reference.sortBatch [strayProposal 1] = [strayProposal 1] :=
    List.perm_singleton.mp (sortBatch_spec reference_sortsUnstable _).1
  have hmatch : reference.matchLanded sampleHandle.log.records 0
      (reference.sortBatch [strayProposal 1]) = .ok ⟨[], [strayProposal 1], 0⟩ := by
    rw [hsorted]
    rfl
  have hcheck := checkLanded_eq rfl sampleRules_hash
    (show reference.buildStateUnchecked sampleHandle.log.records = some State.empty from rfl)
    (show startAfter sampleHandle emptyHead = .ok 0 from rfl) hmatch
  have heach : reference.commitEach sampleRules neverFaults sampleHandle State.empty
      [strayProposal 1] = _ := runAll_cons_ok (commitAt_ok (k := 0) hcommit)
  refine ⟨⟨w'.head, [(id, ⟨.reject, some .invalidPayload⟩)], 0⟩, w', s', ?_, hrecords⟩
  rw [show sampleHandle.head = emptyHead from rfl,
    checkedBatchCommit_eq neverFaults (hcheck.trans (if_neg (fun h => h.2 rfl))) (by simp)]
  simp only [heach]
  rfl

end Bellbook
