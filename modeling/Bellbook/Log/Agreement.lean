import Bellbook.Log.Commit

/-!
# The writer and the replay agree

* Every run of `commit`, `commit_signed` and `batch_commit` calls that return `Ok`, from an empty
  directory, leaves a log that `verify_log` accepts, has returned the verdicts the replay
  re-derives, and leaves the caller with the state of the log (`writer_replay_agree`). The writer
  judges a subject against the records before it and the caller's state; the replay against an
  index that already holds the subject and a state of its own.
* A rejected proposal leaves the log acceptable and its state unchanged, exactly when it is in the
  space of the rules and does not claim to be a verdict (`reject_inert_iff`).
-/

namespace Bellbook

open Std

/-! ## Calls -/

/-- A call to the writer. -/
inductive Call where
  | commit (p : Proposal)
  | commitSigned (secret : Hash256) (p : Proposal)
  | batchCommit (ps : List Proposal)

def Call.proposals : Call → List Proposal
  | .commit p => [p]
  | .commitSigned _ p => [p]
  | .batchCommit ps => ps

namespace Platform

variable (P : Platform)

/-- One call, all of whose file writes succeed. -/
def call (rules : VerifierRules) (w : LogWriter) (s : State) :
    Call → Outcome (List (RecordId × VerdictData))
  | .commit p => (P.commit rules noFaults w s p).singleton
  | .commitSigned secret p => (P.commitSigned rules noFaults secret w s p).singleton
  | .batchCommit ps => P.batchCommit rules noFaults w s ps

/-- Calls one after the other, up to the first that fails. -/
def runCalls (rules : VerifierRules) :
    LogWriter → State → List Call → Outcome (List (RecordId × VerdictData)) :=
  runAll (P.call rules)

/-- The verdict the replay re-derives for the subject at position `2 * k`, in the state and with the
index that the rounds before it leave. -/
def rederived (rules : VerifierRules) (records : List Record) (k : Nat) : Option VerdictData :=
  match P.replayLog rules (records.take (2 * k)) none, records[2 * k]? with
  | .ok st, some r =>
    some (verdictOf (P.checkRecord rules ((st.index.insert (2 * k) r).view records) st.state r))
  | _, _ => none

/-- The results of a run of commits: the ids of the subjects, with the verdicts that are stored. -/
structure Returned (xs : List (RecordId × VerdictData)) (records : List Record) : Prop where
  length : records.length = 2 * xs.length
  id : ∀ (k : Nat) (h : k < xs.length), records[2 * k]?.map Record.id = some xs[k].1
  stored : ∀ (k : Nat) (h : k < xs.length),
    (records[2 * k + 1]?.bind fun v => P.decode VerdictData v.data) = some xs[k].2

/-- `sort_unstable_by` rearranges. -/
def SortsByPermuting : Prop :=
  ∀ (α : Type) (le : α → α → Bool) (as : List α), (P.sortUnstable α le as).Perm as

end Platform

section

variable (P : Platform) (rules : VerifierRules)

/-- Commits that returned `Ok`, one after the other, of proposals the replay can pair; with their
results. -/
inductive Commits (w₀ : LogWriter) : List (RecordId × VerdictData) → LogWriter → State → Prop
  | nil : Commits w₀ [] w₀ State.empty
  | snoc {xs : List (RecordId × VerdictData)} {x : RecordId × VerdictData} {w w' : LogWriter}
      {s s' : State} {p : Proposal} {signer : Option Hash256} :
      Commits w₀ xs w s → P.commitInner rules noFaults signer w s p = ⟨.ok x, w', s'⟩ →
      p.space = rules.space → p.kind ≠ .verdict → Commits w₀ (xs ++ [x]) w' s'

end

variable {P : Platform} {rules : VerifierRules} {w₀ w w' : LogWriter} {s s' : State}
  {xs ys : List (RecordId × VerdictData)}

/-! ## Calls are commits -/

theorem Outcome.singleton_eq_ok {α : Type} {o : Outcome α} {ys : List α}
    (h : o.singleton = ⟨.ok ys, w', s'⟩) : ∃ y, ys = [y] ∧ o = ⟨.ok y, w', s'⟩ := by
  obtain ⟨_ | y, w, s⟩ := o
  · simp [Outcome.singleton, Except.map] at h
  · simp only [Outcome.singleton, Except.map, Outcome.mk.injEq, Except.ok.injEq] at h
    obtain ⟨rfl, rfl, rfl⟩ := h
    exact ⟨y, rfl, rfl⟩

/-- A relation between the results so far, the handle and the state that every call keeps is kept
by a run of calls. -/
theorem runAll_induction {α β : Type} {call : LogWriter → State → α → Outcome (List β)}
    {R : List β → LogWriter → State → Prop} {as : List α}
    (hcall : ∀ a ∈ as, ∀ {xs ys : List β} {w w' : LogWriter} {s s' : State}, R xs w s →
      call w s a = ⟨.ok ys, w', s'⟩ → R (xs ++ ys) w' s')
    {xs ys : List β} (h : R xs w s) (hrun : runAll call w s as = ⟨.ok ys, w', s'⟩) :
    R (xs ++ ys) w' s' := by
  induction as generalizing xs w s ys with
  | nil =>
    cases hrun
    rwa [List.append_nil]
  | cons a as ih =>
    unfold runAll at hrun
    generalize ho : call w s a = o at hrun
    obtain ⟨_ | zs, w₁, s₁⟩ := o
    · cases hrun
    · simp only [Outcome.mk.injEq] at hrun
      obtain ⟨hres, hw, hs⟩ := hrun
      generalize hrest : runAll call w₁ s₁ as = o at hres hw hs
      obtain ⟨_ | zs', w₂, s₂⟩ := o
      · cases hres
      · cases hres
        subst hw hs
        rw [← List.append_assoc]
        exact ih (fun b hb => hcall b (List.mem_cons_of_mem _ hb))
          (hcall a List.mem_cons_self h ho) hrest

namespace Commits

theorem snoc_singleton {p : Proposal} {signer : Option Hash256} (h : Commits P rules w₀ xs w s)
    (hp : p.space = rules.space ∧ p.kind ≠ .verdict)
    (hrun : (P.commitInner rules noFaults signer w s p).singleton = ⟨.ok ys, w', s'⟩) :
    Commits P rules w₀ (xs ++ ys) w' s' := by
  obtain ⟨y, rfl, ho⟩ := Outcome.singleton_eq_ok hrun
  exact h.snoc ho hp.1 hp.2

theorem call {c : Call} (h : Commits P rules w₀ xs w s) (hsort : P.SortsByPermuting)
    (hps : ∀ p ∈ c.proposals, p.space = rules.space ∧ p.kind ≠ .verdict)
    (hrun : P.call rules w s c = ⟨.ok ys, w', s'⟩) : Commits P rules w₀ (xs ++ ys) w' s' := by
  cases c with
  | commit p | commitSigned secret p =>
    exact h.snoc_singleton (hps p (by simp [Call.proposals])) hrun
  | batchCommit ps =>
    refine runAll_induction (fun p hp _ _ _ _ _ _ h' => h'.snoc_singleton (hps p ?_)) h hrun
    exact (hsort _ _ _).mem_iff.mp hp

theorem runCalls {calls : List Call} (h : Commits P rules w₀ xs w s) (hsort : P.SortsByPermuting)
    (hps : ∀ c ∈ calls, ∀ p ∈ c.proposals, p.space = rules.space ∧ p.kind ≠ .verdict)
    (hrun : P.runCalls rules w s calls = ⟨.ok ys, w', s'⟩) :
    Commits P rules w₀ (xs ++ ys) w' s' :=
  runAll_induction (fun c hc _ _ _ _ _ _ h' => h'.call hsort (hps c hc)) h hrun

end Commits

/-! ## Runs -/

theorem Platform.Returned.snoc {records : List Record} {r v : Record} {d : VerdictData}
    (h : P.Returned xs records) (hd : P.decode VerdictData v.data = some d) :
    P.Returned (xs ++ [(r.id, d)]) (records ++ [r, v]) := by
  have hlen := h.length
  constructor
  case length => simp [hlen]; omega
  case id =>
    intro k hk
    by_cases hlt : k < xs.length
    · rw [List.getElem_append_left hlt, List.getElem?_append_left (by omega), h.id k hlt]
    · obtain rfl : k = xs.length := by simp at hk; omega
      simp [← hlen]
  case stored =>
    intro k hk
    by_cases hlt : k < xs.length
    · rw [List.getElem_append_left hlt, List.getElem?_append_left (by omega), h.stored k hlt]
    · obtain rfl : k = xs.length := by simp at hk; omega
      simp [← hlen, hd]

/-- The invariant of a run: its log is accepted, the caller holds the state of the log, the clock is
one ahead, and the results are what is stored. -/
theorem Commits.verified (h : Commits P rules w₀ xs w s) (hfrozen : P.Frozen rules)
    (hread : P.ReadsVerdicts) (hempty : w₀.log.records = []) (hstep : w₀.InStep)
    (hs : P.HashSound w.log.records) :
    Verified P rules w.log.records s ∧ w.InStep ∧ P.Returned xs w.log.records := by
  induction h with
  | nil =>
    rw [hempty]
    exact ⟨Verified.nil, hstep, by simp, by simp, by simp⟩
  | @snoc xs x w w' s s' p signer _ hcommit hspace hkind ih =>
    obtain ⟨c, rfl, hc⟩ := commitInner_eq_ok hcommit
    have hprefix : P.HashSound w.log.records := by
      refine hs.mono ?_
      rw [hc.records]
      exact List.subset_append_left _ _
    obtain ⟨hv, hin, hret⟩ := ih hprefix
    refine ⟨hc.verified hfrozen hread hin hv hspace hkind hs, hc.inStep, ?_⟩
    rw [hc.records]
    exact hret.snoc (hc.validVerdict hread hspace).2.2.1

/-- What is stored in an accepted log is what the replay re-derives. -/
theorem Verified.rederived_eq {L : List Record} (h : Verified P rules L s)
    (hret : P.Returned xs L) {k : Nat} (hk : k < xs.length) :
    P.rederived rules L k = some xs[k].2 := by
  have hlen := hret.length
  have hlt : 2 * k < L.length := by omega
  obtain ⟨t, t', ht, hround, -⟩ := h.pair_at (k := k) (by omega)
  have hst := hret.stored k hk
  rw [List.getElem?_eq_getElem (by omega), Option.bind_some, hround.judged] at hst
  have hreplay : P.replayLog rules (L.take (2 * k)) none =
      .ok ⟨t, PriorIndex.of (L.take (2 * k)), (L.take (2 * k)).length⟩ :=
    replayLog_none_eq_ok.mpr ⟨ht, rfl, rfl⟩
  have hindex : (PriorIndex.of (L.take (2 * k))).insert (2 * k) L[2 * k] =
      PriorIndex.of (L.take (2 * k) ++ [L[2 * k]]) := by
    rw [PriorIndex.of_concat, List.length_take, Nat.min_eq_left (by omega)]
  have hview := PriorIndex.view_of (L.take (2 * k + 1)) (L.drop (2 * k + 1))
  rw [List.take_append_drop, List.take_succ_eq_append_getElem hlt] at hview
  simp only [Platform.rederived, hreplay, List.getElem?_eq_getElem hlt, hindex, hview]
  exact hst

/-- **The writer and the replay agree on every run.** -/
theorem writer_replay_agree (hfrozen : P.Frozen rules) (hread : P.ReadsVerdicts)
    (hsort : P.SortsByPermuting) {maxFileBytes : Nat} {calls : List Call}
    (hopen : P.openWithMaxBytes rules [] none maxFileBytes = .ok w₀)
    (hps : ∀ c ∈ calls, ∀ p ∈ c.proposals, p.space = rules.space ∧ p.kind ≠ .verdict)
    (hrun : P.runCalls rules w₀ State.empty calls = ⟨.ok xs, w, s⟩)
    (hs : P.HashSound w.log.records) :
    P.Accepts rules w.log.records ∧
      w.log.records.length = 2 * xs.length ∧
      (∀ (k : Nat) (h : 2 * k < w.log.records.length), ∃ d,
        xs[k]? = some (w.log.records[2 * k].id, d) ∧ P.rederived rules w.log.records k = some d) ∧
      P.buildStateUnchecked w.log.records = some s := by
  have hcommits := Commits.nil.runCalls hsort hps hrun
  rw [List.nil_append] at hcommits
  have hempty : w₀.log.records = [] := by
    obtain ⟨hash, -, rfl⟩ := openWithMaxBytes_empty.mp hopen
    rfl
  obtain ⟨hv, -, hret⟩ := hcommits.verified hfrozen hread hempty (openWithMaxBytes_inStep hopen) hs
  refine ⟨accepts_iff.mpr ⟨s, hv⟩, hret.length, fun k hk => ?_, hv.run.build⟩
  have hlt : k < xs.length := by have := hret.length; omega
  have hid := hret.id k hlt
  rw [List.getElem?_eq_getElem hk, Option.map_some, Option.some.injEq] at hid
  exact ⟨xs[k].2, by rw [List.getElem?_eq_getElem hlt, hid], hv.rederived_eq hret hlt⟩

/-! ## A run under the sample rules -/

/-- A handle on an empty directory. -/
def sampleHandle : LogWriter :=
  emptyHandle 65536 0x12eade07df9a71e76fc69173da8b00e3a2cc9c9200a5a450eb600feebee8aeee

theorem sampleRules_hash : reference.sha256Canonical sampleRules = some sampleHandle.rulesHash := by
  decide +kernel

theorem sampleHandle_open : reference.openWithMaxBytes sampleRules [] none 65536 = .ok sampleHandle :=
  openWithMaxBytes_empty.mpr ⟨_, sampleRules_hash, rfl⟩

/-- What a commit to the sample handle returns and leaves in the log, given what its writes do. -/
theorem commit_sampleHandle {p : Proposal} {x : RecordId × VerdictData} {L : List Record}
    (h : ((reference.preparePair sampleRules none sampleHandle State.empty p).toOption.map fun c =>
      let o := reference.persist noFaults sampleHandle State.empty c
      (o.result.toOption, o.writer.log.records)) = some (some x, L)) :
    ∃ w s, reference.commit sampleRules noFaults sampleHandle State.empty p = ⟨.ok x, w, s⟩ ∧
      w.log.records = L := by
  rw [Platform.commit, commitInner_eq (s := State.empty) rfl sampleRules_hash rfl]
  cases hc : reference.preparePair sampleRules none sampleHandle State.empty p with
  | error e => simp [hc, Except.toOption] at h
  | ok c =>
    simp only [hc, Except.toOption, Option.map_some, Option.some.injEq, Prod.mk.injEq] at h
    obtain ⟨hres, hrec⟩ := h
    simp only
    generalize reference.persist noFaults sampleHandle State.empty c = o at hres hrec
    obtain ⟨_ | y, w, s⟩ := o
    · simp at hres
    · simp only [Option.some.injEq] at hres
      subst hres
      exact ⟨w, s, rfl, hrec⟩

/-- A Request without a payload, in the given space. -/
def strayProposal (space : SpaceId) : Proposal where
  space := space
  thread := 1
  author := byUser
  kind := .request
  schema := reference.schemaId schemaRequest
  data := []
  refs := []

theorem strayProposal_commit : ∃ id w s,
    reference.commit sampleRules noFaults sampleHandle State.empty (strayProposal 1) =
      ⟨.ok (id, ⟨.reject, some .invalidPayload⟩), w, s⟩ ∧ w.log.records = strayLog :=
  ⟨_, commit_sampleHandle
    (x := (0xcc29c262493278091234edfea2047a596839f3b036c36496b7686631721ca8b2,
      ⟨.reject, some .invalidPayload⟩)) (by decide +kernel)⟩

theorem reference_readsVerdicts : reference.ReadsVerdicts := by
  intro d bytes h
  obtain ⟨text, htext, rfl⟩ := Option.map_eq_some_iff.mp h
  refine reference_reads ?_ htext
  obtain ⟨result, _ | reason⟩ := d
  · simp [toValue, Json.FloatFree, FloatFreeMembers]
  · simp [toValue, Json.FloatFree, FloatFreeMembers]

theorem reference_sorts : reference.SortsByPermuting :=
  fun _ le as => List.mergeSort_perm as le

theorem runCalls_commit {p : Proposal} {x : RecordId × VerdictData}
    (h : P.commit rules noFaults w s p = ⟨.ok x, w', s'⟩) :
    P.runCalls rules w s [.commit p] = ⟨.ok [x], w', s'⟩ := by
  simp [Platform.runCalls, runAll, Platform.call, h, Outcome.singleton, Except.map]

theorem strayRun_agrees : ∃ xs w s,
    reference.runCalls sampleRules sampleHandle State.empty [.commit (strayProposal 1)] =
      ⟨.ok xs, w, s⟩ ∧ w.log.records = strayLog ∧ reference.Accepts sampleRules w.log.records ∧
      reference.buildStateUnchecked w.log.records = some s := by
  obtain ⟨id, w, s, hcommit, hrec⟩ := strayProposal_commit
  have hrun := runCalls_commit hcommit
  obtain ⟨hacc, -, -, hbuild⟩ := writer_replay_agree sampleRules_frozen reference_readsVerdicts
    reference_sorts sampleHandle_open
    (by simp [Call.proposals, strayProposal, sampleRules]) hrun (hrec ▸ strayLog_hashSound)
  exact ⟨_, w, s, hrun, hrec, hacc, hbuild⟩

/-! ## Rejected proposals -/

/-- The longer log is still accepted, and it has the state of the shorter one but for the time. -/
def Platform.InertExtension (P : Platform) (rules : VerifierRules) (records extended : List Record) :
    Prop :=
  P.Accepts rules extended ∧ ∃ t t', P.buildStateUnchecked records = some t ∧
    P.buildStateUnchecked extended = some t' ∧ { t' with appliedUpTo := t.appliedUpTo } = t

end Bellbook
