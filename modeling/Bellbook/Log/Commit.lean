import Bellbook.Log.Writer
import Bellbook.Verify.Specification

/-!
# One commit

What a call of the writer does when it returns `Ok`, and what every call keeps.

* `Prepares` is everything the phase before the first write establishes; `Committed` adds what the
  writes and the fold leave behind (`commitInner_eq_ok`).
* `Built` are the handles that come from an empty directory by any calls, failed or not, and by
  reopening. As long as such a handle is usable, its clock is one ahead of its log (`Built.inStep`).
* Over an accepted log, a commit of a proposal in the space of the rules that is no verdict extends
  the run of the replay by one round (`Committed.verified`).
-/

namespace Bellbook

open Std

/-- The clock of the handle is where reopening its log would put it. -/
def LogWriter.InStep (w : LogWriter) : Prop := w.timeSource = .fromLastTime w.log.lastTime

section

variable (P : Platform)

/-- The handle of an empty directory. -/
def emptyHandle (maxFileBytes : Nat) (rulesHash : Hash256) : LogWriter where
  log := { file := [], intent := none, records := [], index := ∅, maxFileBytes }
  timeSource := ⟨1⟩
  rulesHash := rulesHash
  recoveryRequired := false

/-- What holds of a commit that is ready to be written. -/
structure Prepares (rules : VerifierRules) (w : LogWriter) (s : State) (p : Proposal)
    (c : Prepared) : Prop where
  usable : w.recoveryRequired = false
  state : P.buildStateUnchecked w.log.records = some s
  room : w.timeSource.exhausted = false
  space : c.subject.space = p.space
  kind : c.subject.kind = p.kind
  time : c.subject.time = w.timeSource.next
  id : P.computeId c.subject = some c.subject.id
  verdict : c.verdict = P.verifyRecord rules w.log.records s c.subject
  record : ∃ t, nextTime? w.timeSource.next = some t ∧
    P.materializeVerdict c.subject t c.verdict = some c.verdictRecord

/-- What holds after a commit has returned `Ok`. The subject is looked up again by its id before it
is folded, and a verdict with the same id would be found in its place. -/
structure Committed (rules : VerifierRules) (w : LogWriter) (s : State) (p : Proposal)
    (c : Prepared) (w' : LogWriter) (s' : State) : Prop extends Prepares P rules w s p c where
  records : w'.log.records = w.log.records ++ [c.subject, c.verdictRecord]
  usable' : w'.recoveryRequired = false
  inStep : w'.InStep
  folded : c.subject.id ≠ c.verdictRecord.id → (P.applyRecord s c.subject c.verdict).map
    (fun t => { t with appliedUpTo := c.verdictRecord.time }) = some s'

/-- The handles that come from an empty directory. -/
inductive Built : LogWriter → Prop
  | empty {rules : VerifierRules} {maxFileBytes : Nat} {w : LogWriter} :
      P.openWithMaxBytes rules [] none maxFileBytes = .ok w → Built w
  | call {w : LogWriter} (rules : VerifierRules) (faults : Faults) (signer : Option Hash256)
      (s : State) (p : Proposal) : Built w → Built (P.commitInner rules faults signer w s p).writer
  | reopen {rules : VerifierRules} {maxFileBytes : Nat} {w w' : LogWriter} :
      Built w → P.openWithMaxBytes rules w.log.file w.log.intent maxFileBytes = .ok w' → Built w'

/-- The handles of any directory that opens. -/
inductive Opened : LogWriter → Prop
  | opened {rules : VerifierRules} {file : Bytes} {intent : Option Bytes} {maxFileBytes : Nat}
      {w : LogWriter} : P.openWithMaxBytes rules file intent maxFileBytes = .ok w → Opened w
  | call {w : LogWriter} (rules : VerifierRules) (faults : Faults) (signer : Option Hash256)
      (s : State) (p : Proposal) : Opened w → Opened (P.commitInner rules faults signer w s p).writer

/-- `serde_json` reads the canonical text of a verdict back as the tree it was written from. -/
def Platform.ReadsVerdicts : Prop :=
  ∀ (d : VerdictData) (bytes : Bytes), P.encode d = some bytes →
    P.readJson bytes = some (toValue d).canon

end

variable {P : Platform} {rules : VerifierRules} {w w' : LogWriter} {s s' : State} {p : Proposal}
  {c : Prepared} {faults : Faults} {signer : Option Hash256}

/-! ## Before the writes -/

theorem withComputedId_eq_some {r r' : Record} :
    P.withComputedId r = some r' ↔ P.computeId r' = some r'.id ∧ r' = { r with id := r'.id } := by
  unfold Platform.withComputedId
  constructor
  · intro h
    obtain ⟨id, hid, rfl⟩ := Option.map_eq_some_iff.mp h
    exact ⟨hid, rfl⟩
  · rintro ⟨hid, heq⟩
    have : P.computeId r = some r'.id := by
      rw [heq] at hid
      exact hid
    rw [this, Option.map_some, ← heq]

theorem attachSignature_eq_some {r r' : Record} (h : P.attachSignature signer r = some r') :
    r'.space = r.space ∧ r'.kind = r.kind ∧ r'.time = r.time := by
  unfold Platform.attachSignature at h
  split at h
  · cases h
    exact ⟨rfl, rfl, rfl⟩
  · obtain ⟨sig, -, rfl⟩ := Option.map_eq_some_iff.mp h
    exact ⟨rfl, rfl, rfl⟩

/-- The pair may be made: the handle is usable, and the caller has its rules and its state. -/
theorem prepare_eq (husable : w.recoveryRequired = false)
    (hrules : P.sha256Canonical rules = some w.rulesHash)
    (hstate : P.buildStateUnchecked w.log.records = some s) :
    P.prepare rules signer w s p = P.preparePair rules signer w s p := by
  simp [Platform.prepare, Platform.ensureWritable, Platform.ensureRulesMatch,
    Platform.ensureStateMatches, husable, hrules, hstate, refuseIf, orSerde, orError, bind,
    Except.bind]

theorem prepare_eq_ok (h : P.prepare rules signer w s p = .ok c) : Prepares P rules w s p c := by
  unfold Platform.prepare Platform.ensureWritable Platform.ensureRulesMatch
    Platform.ensureStateMatches Platform.preparePair at h
  simp only [bind_eq_ok, refuseIf_eq_ok, orSerde_eq_ok, orError_eq_ok, pure, Except.pure,
    Except.ok.injEq] at h
  obtain ⟨-, husable, -, ⟨_, -, -⟩, -, ⟨state, hbuild, hstate⟩, -, hroom, t, ht, signed, hsigned,
    subject, hsubject, v, hv, -, -, rfl⟩ := h
  obtain ⟨hid, heq⟩ := withComputedId_eq_some.mp hsubject
  obtain ⟨hspace, hkind, htime⟩ := attachSignature_eq_some hsigned
  rw [not_not] at hstate
  subst hstate
  rw [Bool.not_eq_true] at husable hroom
  refine ⟨husable, hbuild, hroom, ?_, ?_, ?_, hid, rfl, t, ht, hv⟩
  · rw [heq]
    exact hspace
  · rw [heq]
    exact hkind
  · rw [heq]
    exact htime

/-- The verdict record of the writer is valid, once its payload reads back. -/
theorem materializeVerdict_eq_some {subject v : Record} {t : Time} {d : VerdictData}
    (h : P.materializeVerdict subject t d = some v) :
    P.computeId v = some v.id ∧ P.encode d = some v.data ∧ v = { subject with
      id := v.id
      time := t
      author := { id := "verifier", type := .verifier, signature := none }
      kind := .verdict
      schema := P.schemaId schemaVerdict
      data := v.data
      refs := [⟨.cause, subject.id⟩]
      evidence := .deterministic } := by
  obtain ⟨data, hdata, h⟩ := Option.bind_eq_some_iff.mp h
  obtain ⟨hid, heq⟩ := withComputedId_eq_some.mp h
  have hd : v.data = data := by rw [heq]
  subst hd
  exact ⟨hid, hdata, heq⟩

/-! ## The writes -/

section Writes

variable {log log' : FileLog} {fault : Option Nat} {u : Unit}

theorem append_eq_ok {r : Record} (h : P.append log fault r = (.ok u, log')) :
    log'.records = log.records ++ [r] ∧ log'.index = log.index.insert r.id log.records.length := by
  unfold Platform.append at h
  split at h
  · cases h
  · cases h
  · split at h
    · cases h
    · cases h
      exact ⟨rfl, rfl⟩

theorem writeIntent_snd (log : FileLog) (fault : Option Nat) (intent : CommitIntent) :
    (P.writeIntent log fault intent).2.records = log.records ∧
      (P.writeIntent log fault intent).2.index = log.index := by
  unfold Platform.writeIntent
  split <;> exact ⟨rfl, rfl⟩

theorem clearIntent_snd (log : FileLog) (fault : Option Nat) :
    (Platform.clearIntent log fault).2.records = log.records ∧
      (Platform.clearIntent log fault).2.index = log.index := by
  unfold Platform.clearIntent
  split <;> exact ⟨rfl, rfl⟩

theorem writePair_eq_ok (h : P.writePair log faults c = (.ok u, log')) :
    log'.records = log.records ++ [c.subject, c.verdictRecord] ∧
      log'.index = (log.index.insert c.subject.id log.records.length).insert c.verdictRecord.id
        (log.records.length + 1) := by
  unfold Platform.writePair at h
  split at h
  · cases h
  next log₁ h₁ =>
  obtain ⟨hr₁, hi₁⟩ := append_eq_ok h₁
  split at h
  · cases h
  next log₂ h₂ =>
  obtain ⟨hr₂, hi₂⟩ := writeIntent_snd (P := P) log₁ (faults .written) ⟨c.subject.id, true⟩
  rw [h₂] at hr₂ hi₂
  split at h
  · cases h
  next log₃ h₃ =>
  obtain ⟨hr₃, hi₃⟩ := append_eq_ok h₃
  obtain ⟨hr₄, hi₄⟩ := clearIntent_snd log₃ (faults .clear)
  rw [h] at hr₄ hi₄
  simp only at hr₂ hi₂ hr₄ hi₄
  rw [hr₄, hi₄, hr₃, hi₃, hr₂, hi₂, hr₁, hi₁]
  simp

/-- The subject is found again under its id, unless its verdict has the same one. -/
theorem get_subject {n : IdMap Nat} {r v : Record}
    (hrecords : log'.records = log.records ++ [r, v])
    (hindex : log'.index = (n.insert r.id log.records.length).insert v.id
      (log.records.length + 1)) (hne : r.id ≠ v.id) : log'.get r.id = some r := by
  have hpos : log'.index[r.id]? = some log.records.length := by
    rw [hindex, ExtTreeMap.getElem?_insert, if_neg, ExtTreeMap.getElem?_insert_self]
    simpa using hne.symm
  simp [FileLog.get, hpos, hrecords]

end Writes

/-! ## The whole call -/

theorem persist_eq_ok {x : RecordId × VerdictData} (hprep : Prepares P rules w s p c)
    (h : P.persist faults w s c = ⟨.ok x, w', s'⟩) :
    x = (c.subject.id, c.verdict) ∧ Committed P rules w s p c w' s' := by
  unfold Platform.persist at h
  split at h
  · cases h
  next log₁ h₁ =>
  obtain ⟨hr₁, hi₁⟩ := writeIntent_snd (P := P) w.log (faults .intent) ⟨c.subject.id, false⟩
  rw [h₁] at hr₁ hi₁
  simp only at hr₁ hi₁
  split at h
  · cases h
  next log₂ h₂ =>
  obtain ⟨hr₂, hi₂⟩ := writePair_eq_ok h₂
  split at h
  · cases h
  next found hget =>
  split at h
  · cases h
  next t hfold =>
  simp only [Outcome.mk.injEq, Except.ok.injEq] at h
  obtain ⟨rfl, rfl, rfl⟩ := h
  obtain ⟨time, htime, hv⟩ := hprep.record
  have hvtime : c.verdictRecord.time = time := by rw [(materializeVerdict_eq_some hv).2.2]
  refine ⟨rfl, hprep, by rw [hr₂, hr₁], rfl, ?_, fun hne => ?_⟩
  · simp [LogWriter.InStep, FileLog.lastTime, hr₂, hvtime, TimeSource.fromLastTime,
      TimeSource.advance, saturatingNext, htime]
  · rw [get_subject hr₂ hi₂ hne] at hget
    cases hget
    rw [hfold]
    rfl

theorem commitInner_eq_ok {x : RecordId × VerdictData}
    (h : P.commitInner rules faults signer w s p = ⟨.ok x, w', s'⟩) :
    ∃ c, x = (c.subject.id, c.verdict) ∧ Committed P rules w s p c w' s' := by
  unfold Platform.commitInner at h
  split at h
  · cases h
  · next c hc => exact ⟨c, persist_eq_ok (prepare_eq_ok hc) h⟩

/-- A call whose caller has the rules and the state of the handle makes the pair and writes it. -/
theorem commitInner_eq (husable : w.recoveryRequired = false)
    (hrules : P.sha256Canonical rules = some w.rulesHash)
    (hstate : P.buildStateUnchecked w.log.records = some s) :
    P.commitInner rules faults signer w s p =
      match P.preparePair rules signer w s p with
      | .error e => ⟨.error e, w, s⟩
      | .ok c => P.persist faults w s c := by
  unfold Platform.commitInner
  cases h : P.preparePair rules signer w s p with
  | error e => rw [prepare_eq husable hrules hstate, h]
  | ok c => rw [prepare_eq husable hrules hstate, h]

/-- A call that fails leaves the records and the clock alone, or the handle unusable. -/
theorem commitInner_eq_error {e : LogError}
    (h : P.commitInner rules faults signer w s p = ⟨.error e, w', s'⟩) :
    (w'.log.records = w.log.records ∧ w'.timeSource = w.timeSource ∧
      w'.recoveryRequired = w.recoveryRequired) ∨ w'.recoveryRequired = true := by
  unfold Platform.commitInner at h
  split at h
  · cases h
    exact .inl ⟨rfl, rfl, rfl⟩
  next c hc =>
  unfold Platform.persist at h
  split at h
  · next log₁ h₁ =>
    cases h
    obtain ⟨hr₁, -⟩ := writeIntent_snd (P := P) w.log (faults .intent) ⟨c.subject.id, false⟩
    rw [h₁] at hr₁
    exact .inl ⟨hr₁, rfl, rfl⟩
  split at h
  · cases h
    exact .inr rfl
  split at h
  · cases h
    exact .inr rfl
  split at h
  · cases h
    exact .inr rfl
  · cases h

theorem openWithMaxBytes_inStep {file : Bytes} {intent : Option Bytes} {maxFileBytes : Nat}
    (h : P.openWithMaxBytes rules file intent maxFileBytes = .ok w) : w.InStep := by
  unfold Platform.openWithMaxBytes at h
  simp only [bind_eq_ok, orSerde_eq_ok, pure, Except.pure, Except.ok.injEq] at h
  obtain ⟨_, -, _, -, log, -, _, -, _, -, rfl⟩ := h
  rfl

theorem openWithMaxBytes_empty {maxFileBytes : Nat} :
    P.openWithMaxBytes rules [] none maxFileBytes = .ok w ↔
      ∃ hash, P.sha256Canonical rules = some hash ∧ w = emptyHandle maxFileBytes hash := by
  have hfile : P.openFile [] none maxFileBytes = .ok (emptyHandle maxFileBytes 0).log := rfl
  have hvalid : P.requireValidLog rules [] = .ok () := rfl
  have hrecover : P.recover rules (emptyHandle maxFileBytes 0).log =
    .ok (emptyHandle maxFileBytes 0).log := rfl
  unfold Platform.openWithMaxBytes
  simp only [hfile, bind_eq_ok, orSerde_eq_ok, pure, Except.pure, Except.ok.injEq]
  constructor
  · rintro ⟨_, ⟨⟩, _, -, _, hrec, _, -, hash, hhash, rfl⟩
    cases hrec
    exact ⟨hash, hhash, rfl⟩
  · rintro ⟨hash, hhash, rfl⟩
    exact ⟨_, rfl, (), hvalid, _, hrecover, (), hvalid, hash, hhash, rfl⟩

/-- The clock of a usable handle is one ahead of its log. -/
theorem Opened.inStep (h : Opened P w) : w.recoveryRequired = false → w.InStep := by
  induction h with
  | opened hopen => exact fun _ => openWithMaxBytes_inStep hopen
  | @call w rules faults signer s p _ ih =>
    generalize ho : P.commitInner rules faults signer w s p = o
    obtain ⟨result, w', s'⟩ := o
    intro husable
    cases result with
    | ok x =>
      obtain ⟨c, -, hc⟩ := commitInner_eq_ok ho
      exact hc.inStep
    | error e =>
      rcases commitInner_eq_error ho with ⟨hr, ht, hu⟩ | hu
      · have := ih (hu ▸ husable)
        simpa [LogWriter.InStep, FileLog.lastTime, hr, ht] using this
      · simp [hu] at husable

theorem Built.opened (h : Built P w) : Opened P w := by
  induction h with
  | empty hopen | reopen _ hopen => exact .opened hopen
  | call rules faults signer s p _ ih => exact .call rules faults signer s p ih

theorem Built.inStep (h : Built P w) : w.recoveryRequired = false → w.InStep := h.opened.inStep

/-! ## The payload of a verdict -/

theorem canon_verdictData (d : VerdictData) :
    (toValue d).canon = .object [("reason", toValue d.reason), ("result", toValue d.result)] := by
  have hnle : ¬utf16 "result" ≤ utf16 "reason" := by decide
  obtain ⟨result, _ | reason⟩ := d
  · simp [toValue, Json.canon, canonMembers, sortMembers, keyLE, hnle]
  · simp [toValue, Json.canon, canonMembers, sortMembers, keyLE, hnle]

theorem fromValue_optionReason (reason : Option ReasonCode) :
    fromValue (toValue reason) = some reason := by
  cases reason with
  | none => rfl
  | some reason =>
    show (fromValue (toValue reason)).map some = some (some reason)
    rw [fromValue_unitEnum, Option.map_some]

theorem fromValue_canon_verdictData (d : VerdictData) : fromValue (toValue d).canon = some d := by
  have hne : ("result" == "reason") = false := by decide
  rw [canon_verdictData]
  show (do
    let f ← structFields true ["result", "reason"]
      (.object [("reason", toValue d.reason), ("result", toValue d.result)])
    return ({ result := ← f.required "result", reason := ← f.optional "reason" } : VerdictData)) = _
  simp [structFields, Fields.required, Fields.optional, List.lookup_cons, hne, fromValue_unitEnum,
    fromValue_optionReason]

theorem Platform.ReadsVerdicts.decode (h : P.ReadsVerdicts) {d : VerdictData} {bytes : Bytes}
    (henc : P.encode d = some bytes) : P.decode VerdictData bytes = some d := by
  rw [Platform.decode, h d bytes henc, Option.bind_some, fromValue_canon_verdictData]

/-! ## One more round of the replay -/

/-- The clock of a handle over a log with times 1, 2, …, n. -/
theorem LogWriter.InStep.next (h : w.InStep)
    (htimes : ∀ (i : Nat) (h : i < w.log.records.length), w.log.records[i].time.toNat = i + 1)
    (hroom : w.timeSource.exhausted = false) :
    w.timeSource.next.toNat = w.log.records.length + 1 := by
  have hlast : (w.log.lastTime.getD 0).toNat = w.log.records.length := by
    unfold FileLog.lastTime
    cases hL : w.log.records.getLast? with
    | none => simp [List.getLast?_eq_none_iff.mp hL]
    | some x =>
      rw [List.getLast?_eq_getElem?] at hL
      obtain ⟨hlt, rfl⟩ := List.getElem?_eq_some_iff.mp hL
      have := htimes _ hlt
      simp only [Option.map_some, Option.getD_some, this]
      omega
  have hnext : w.timeSource.next = saturatingNext (w.log.lastTime.getD 0) := by
    rw [h]
    rfl
  simp only [TimeSource.exhausted, decide_eq_false_iff_not] at hroom
  unfold saturatingNext at hnext
  cases hn : nextTime? (w.log.lastTime.getD 0) with
  | some t =>
    rw [hnext, hn, Option.getD_some, nextTime?_eq_some.mp hn, hlast]
  | none =>
    -- the last time is the last there is, and the clock is exhausted
    unfold nextTime? at hn
    split at hn
    · next hmax =>
      rw [hnext, nextTime?, if_pos hmax, Option.getD_none, hmax] at hroom
      omega
    · cases hn

/-- The verdict record of a commit is valid in the space of its subject. -/
theorem Committed.validVerdict (h : Committed P rules w s p c w' s') (hread : P.ReadsVerdicts)
    (hspace : p.space = rules.space) :
    P.ValidVerdict rules c.subject c.verdictRecord ∧ c.verdictRecord.kind = .verdict ∧
      P.decode VerdictData c.verdictRecord.data = some c.verdict ∧
      nextTime? w.timeSource.next = some c.verdictRecord.time := by
  obtain ⟨t, ht, hv⟩ := h.record
  obtain ⟨hid, henc, heq⟩ := materializeVerdict_eq_some hv
  have hd := hread.decode henc
  have hdata : P.decodesCanonically VerdictData c.verdictRecord.data = true := by
    rw [Platform.decodesCanonically, hd, decide_eq_true_eq]
    exact henc
  have hsp : c.verdictRecord.space = c.subject.space := by rw [heq]
  refine ⟨⟨hid, ?_, ?_, ?_, ?_, hsp, ?_, ?_, hdata, ?_⟩, ?_, hd, ?_⟩
  case refine_4 => rw [hsp, h.space, hspace]
  case refine_9 => rw [heq, ht]
  all_goals rw [heq]

theorem Prepares.id_ne (h : Prepares P rules w s p c) (hkind : p.kind ≠ .verdict)
    {M : List Record} (hs : P.HashSound M) (hr : c.subject ∈ M) (hv : c.verdictRecord ∈ M) :
    c.subject.id ≠ c.verdictRecord.id := by
  intro heq
  obtain ⟨t, -, hmat⟩ := h.record
  obtain ⟨hid, -, hrec⟩ := materializeVerdict_eq_some hmat
  have := hs.eq_of_id_eq hr hv h.id hid heq
  rw [← h.kind, this, hrec] at hkind
  exact hkind rfl

theorem Committed.id_ne (h : Committed P rules w s p c w' s') (hkind : p.kind ≠ .verdict)
    (hs : P.HashSound w'.log.records) : c.subject.id ≠ c.verdictRecord.id :=
  h.toPrepares.id_ne hkind hs (by simp [h.records]) (by simp [h.records])

/-- A commit over an accepted log, of a proposal the replay can pair. -/
theorem Committed.verified (h : Committed P rules w s p c w' s') (hfrozen : P.Frozen rules)
    (hread : P.ReadsVerdicts) (hstep : w.InStep) (hv : Verified P rules w.log.records s)
    (hspace : p.space = rules.space) (hkind : p.kind ≠ .verdict)
    (hs : P.HashSound w'.log.records) : Verified P rules w'.log.records s' := by
  obtain ⟨hvalid, hvk, hd, hvt⟩ := h.validVerdict hread hspace
  have htime := hstep.next (fun i hi => hv.time_eq hi) h.room
  have hfolded := h.folded (h.id_ne hkind hs)
  rw [h.records] at hs ⊢
  have hpair : P.PairSpec rules w.log.records c.subject c.verdictRecord :=
    ⟨h.kind ▸ hkind, hvk, hvalid, s, h.state, by rw [hd, h.verdict]⟩
  obtain ⟨t, ht⟩ := (hv.snoc_spec hfrozen (hs.mono (by simp))).mpr
    ⟨by rw [h.time, htime], by rw [nextTime?_eq_some.mp hvt, htime], h.id, hvalid.id, hpair⟩
  obtain ⟨t₀, hv₀, -, -, -, -, hround⟩ := Verified.snoc_iff.mp ht
  cases hv.run.unique hv₀.run
  rw [← Option.some.inj ((hround.applyRecord_eq hd).symm.trans hfolded)]
  exact ht

end Bellbook
