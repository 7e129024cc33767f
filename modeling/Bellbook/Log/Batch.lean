import Mathlib.Data.List.Sort
import Bellbook.Log.Recovery

/-!
# Checked batches (`log/writer/core.rs`, `helpers.rs`)

`checked_batch_commit` commits a batch against the head the appender built it on, and does not append
again what has landed already. What has landed is recognised by content: `matchLanded` finds the
longest prefix of the sorted batch that stands behind the expected head (`matchLanded_eq`).

* The order in which the caller gives the batch does not matter (`sortBatch_eq`).
* `WriterLog` is what every log written by a `LogWriter` looks like (`Opened.writerLog`), and a usable
  handle of such a log is `handleOver` its records (`Opened.eq_handleOver`).
-/

namespace Bellbook

open Std

/-- Outcome of `checked_batch_commit`. -/
structure BatchAppend where
  head : RecordId
  results : List (RecordId × VerdictData)
  replayed : Nat

/-- What has landed of a batch: its results, the proposals that remain, and the position after it. -/
structure LandedPrefix where
  results : List (RecordId × VerdictData)
  remaining : List Proposal
  pos : Nat

/-- `proposal_matches_record`: equal but for what the writer assigns (id, time, evidence). -/
def proposalMatchesRecord (p : Proposal) (r : Record) : Bool :=
  r.space = p.space && r.thread = p.thread && r.author = p.author && r.kind = p.kind &&
    r.schema = p.schema && r.data = p.data && r.refs = sortAndDedupRefs p.refs

/-- The position right after the expected head. -/
def startAfter (w : LogWriter) (expectedHead : RecordId) : Except LogError Nat :=
  if expectedHead = emptyHead then .ok 0
  else match w.log.records.findIdx? fun r => r.id = expectedHead with
    | some pos => .ok (pos + 1)
    | none => .error (.headConflict expectedHead w.head)

namespace Platform

variable (P : Platform)

/-- The longest prefix of the batch that stands in the records from `pos` on. -/
def matchLanded (records : List Record) : Nat → List Proposal → Except LogError LandedPrefix
  | pos, [] => .ok ⟨[], [], pos⟩
  | pos, p :: rest =>
    match records[pos]? with
    | none => .ok ⟨[], p :: rest, pos⟩
    | some subject =>
      if proposalMatchesRecord p subject = false then .ok ⟨[], p :: rest, pos⟩
      else match records[pos + 1]? with
        | none => .error .corruptedRecovery
        | some verdict => do
          let verdictData ← orSerde (P.decode VerdictData verdict.data)
          let landed ← matchLanded records (pos + 2) rest
          return { landed with results := (subject.id, verdictData) :: landed.results }

/-- `checked_batch_commit` up to its first commit. -/
def checkLanded (rules : VerifierRules) (expectedHead : RecordId) (w : LogWriter) (s : State)
    (proposals : List Proposal) : Except LogError LandedPrefix := do
  ensureWritable w
  P.ensureRulesMatch w rules
  P.ensureStateMatches w s
  let start ← startAfter w expectedHead
  let landed ← P.matchLanded w.log.records start (P.sortBatch proposals)
  -- what remains must begin at the end of the log
  refuseIf (landed.remaining ≠ [] ∧ landed.pos ≠ w.log.records.length)
    (.headConflict expectedHead w.head)
  return landed

/-- The commit at a position of a batch. -/
def commitAt (rules : VerifierRules) (faults : Nat → Faults) (w : LogWriter) (s : State)
    (a : Proposal × Nat) : Outcome (List (RecordId × VerdictData)) :=
  (P.commit rules (faults a.2) w s a.1).singleton

/-- Commits one after the other, the one at position `i` with the faults `faults i`. -/
def commitEach (rules : VerifierRules) (faults : Nat → Faults) (w : LogWriter) (s : State)
    (proposals : List Proposal) : Outcome (List (RecordId × VerdictData)) :=
  runAll (P.commitAt rules faults) w s proposals.zipIdx

/-- `LogWriter::checked_batch_commit`. -/
def checkedBatchCommit (rules : VerifierRules) (faults : Nat → Faults) (expectedHead : RecordId)
    (w : LogWriter) (s : State) (proposals : List Proposal) : Outcome BatchAppend :=
  match P.checkLanded rules expectedHead w s proposals with
  | .error e => ⟨.error e, w, s⟩
  | .ok landed =>
    if landed.remaining = [] then
      let head := if landed.pos = 0 then emptyHead
        else (w.log.records[landed.pos - 1]?.map Record.id).getD emptyHead
      ⟨.ok ⟨head, landed.results, landed.results.length⟩, w, s⟩
    else
      let o := P.commitEach rules faults w s landed.remaining
      ⟨o.result.map fun results =>
        ⟨o.writer.head, landed.results ++ results, landed.results.length⟩, o.writer, o.state⟩

/-- `sort_unstable_by` sorts, for a total preorder. -/
def SortsUnstable : Prop :=
  ∀ (α : Type) (le : α → α → Bool), (∀ a b, (le a b || le b a) = true) →
    (∀ a b c, le a b = true → le b c = true → le a c = true) → ∀ as : List α,
      (P.sortUnstable α le as).Perm as ∧ (P.sortUnstable α le as).Pairwise fun a b => le a b = true

/-- What every log written by a `LogWriter` looks like: times 1, 2, …, computed ids, and a verdict
at every second position. -/
structure WriterLog (L : List Record) : Prop where
  even : L.length % 2 = 0
  times : ∀ (i : Nat) (h : i < L.length), L[i].time.toNat = i + 1
  ids : ∀ r ∈ L, P.computeId r = some r.id
  verdicts : ∀ (i : Nat) (h : i < L.length), i % 2 = 1 →
    L[i].kind = .verdict ∧ ∃ d, P.decode VerdictData L[i].data = some d

end Platform

/-- The proposals stand at the beginning of the records, each with a record behind it. -/
def Landed : List Proposal → List Record → Prop
  | [], _ => True
  | p :: ps, r :: _ :: rest => proposalMatchesRecord p r = true ∧ Landed ps rest
  | _ :: _, _ => False

variable {P : Platform} {rules : VerifierRules} {L R : List Record} {w w' : LogWriter} {s s' : State}
  {p : Proposal} {ps : List Proposal}

/-! ## The order of a batch -/

section Order

theorem writeJcs_bytes_isSome (f : UInt64 → List Char) (bytes : Bytes) :
    (writeJcs f (toValue bytes)).isSome = true := by
  show (writeJcs f (.array (bytes.map toValue))).isSome = true
  rw [writeJcs_array_isSome]
  intro v hv
  obtain ⟨b, -, rfl⟩ := List.mem_map.mp hv
  have hb : b.toNat ≤ maxSafeInteger := by
    have := b.toNat_lt
    unfold maxSafeInteger
    omega
  simp [toValue, writeJcs, writeNumber, hb]

theorem writeJcs_author_isSome (f : UInt64 → List Char) (a : Author) :
    (writeJcs f (toValue a)).isSome = true := by
  have hsig : (writeJcs f (toValue a.signature)).isSome = true := by
    cases a.signature with
    | none => rfl
    | some sig =>
      show (writeJcs f (.object [("key_id", toValue sig.keyId), ("sig", toValue sig.sig)])).isSome = true
      simp [writeJcs_object_isSome, writeJcs_string_isSome, writeJcs_bytes_isSome]
  show (writeJcs f (.object
    [("id", toValue a.id), ("type", toValue a.type), ("signature", toValue a.signature)])).isSome = true
  simp [writeJcs_object_isSome, writeJcs_string_isSome, writeJcs_unit_isSome, hsig]

theorem writeJcs_refs_isSome (f : UInt64 → List Char) (refs : List Ref) :
    (writeJcs f (toValue refs)).isSome = true := by
  show (writeJcs f (.array (refs.map toValue))).isSome = true
  rw [writeJcs_array_isSome]
  intro v hv
  obtain ⟨ref, -, rfl⟩ := List.mem_map.mp hv
  show (writeJcs f (.object [("type", toValue ref.type), ("target", toValue ref.target)])).isSome = true
  simp [writeJcs_object_isSome, writeJcs_unit_isSome, writeJcs_hash_isSome]

/-- Proposals have a canonical text: there is no number in them that could be too large. -/
theorem canonicalJson_proposal (p : Proposal) : ∃ bytes, P.canonicalJson p = some bytes := by
  rw [← Option.isSome_iff_exists]
  show (Option.map utf8 (writeJcs P.formatFinite (.object
    [("space", toValue p.space), ("thread", toValue p.thread), ("author", toValue p.author),
      ("kind", toValue p.kind), ("schema", toValue p.schema), ("data", toValue p.data),
      ("refs", toValue p.refs)]))).isSome = true
  rw [Option.isSome_map, writeJcs_object_isSome]
  simp [writeJcs_hash_isSome, writeJcs_author_isSome, writeJcs_unit_isSome, writeJcs_bytes_isSome,
    writeJcs_refs_isSome]

/-- The sort key tells the proposals of a batch apart. -/
theorem batchKey_inj (hkeys : P.CollisionFree (ps.filterMap P.canonicalJson)) {p q : Proposal}
    (hp : p ∈ ps) (hq : q ∈ ps) (h : P.batchKey p = P.batchKey q) : p = q := by
  obtain ⟨a, ha⟩ := canonicalJson_proposal (P := P) p
  obtain ⟨b, hb⟩ := canonicalJson_proposal (P := P) q
  simp only [Platform.batchKey, Platform.sha256Canonical, ha, hb, Option.map_some,
    Option.getD_some] at h
  have hab : a = b := hkeys a (List.mem_filterMap.mpr ⟨p, hp, ha⟩) b
    (List.mem_filterMap.mpr ⟨q, hq, hb⟩) h
  exact canonicalJson_inj P ha (hab ▸ hb)

theorem sortBatch_spec (hsort : P.SortsUnstable) (ps : List Proposal) :
    (P.sortBatch ps).Perm ps ∧ (P.sortBatch ps).Pairwise fun a b => P.batchKey a ≤ P.batchKey b := by
  have h := hsort Proposal (fun a b => decide (P.batchKey a ≤ P.batchKey b))
    (fun a b => by simpa using BitVec.le_total _ _) (fun a b c hab hbc => by
      simp only [decide_eq_true_eq] at hab hbc ⊢
      exact BitVec.le_trans hab hbc) ps
  exact ⟨h.1, h.2.imp fun hab => by simpa using hab⟩

/-- **The order given by the caller does not matter.** -/
theorem sortBatch_eq (hsort : P.SortsUnstable)
    (hkeys : P.CollisionFree (ps.filterMap P.canonicalJson)) {qs : List Proposal}
    (h : qs.Perm ps) : P.sortBatch qs = P.sortBatch ps := by
  obtain ⟨hpq, hq⟩ := sortBatch_spec hsort qs
  obtain ⟨hpp, hp⟩ := sortBatch_spec hsort ps
  refine List.Perm.eq_of_pairwise ?_ hq hp (hpq.trans (h.trans hpp.symm))
  intro a b ha hb hab hba
  exact batchKey_inj hkeys (h.mem_iff.mp (hpq.mem_iff.mp ha)) (hpp.mem_iff.mp hb)
    (BitVec.le_antisymm hab hba)

end Order

/-! ## Handles of a writer -/

/-- The index of the handle is the one of its records. -/
def FileLog.Indexed (log : FileLog) : Prop := log.index = positionIndex log.records

section Indexed

variable {log log' : FileLog} {faults : Faults} {c : Prepared} {signer : Option Hash256}
  {file : Bytes} {intent : Option Bytes} {maxFileBytes : Nat}

theorem FileLog.Indexed.append (h : log.Indexed) (fault : Option Nat) (r : Record) :
    (P.append log fault r).2.Indexed := by
  unfold Platform.append
  split
  · exact h
  · exact h
  · split
    · exact h
    · show log.index.insert r.id log.records.length = positionIndex (log.records ++ [r])
      rw [positionIndex_concat, h]

theorem FileLog.Indexed.writeIntent (h : log.Indexed) (fault : Option Nat) (i : CommitIntent) :
    (P.writeIntent log fault i).2.Indexed := by
  obtain ⟨hr, hi⟩ := writeIntent_snd (P := P) log fault i
  rw [FileLog.Indexed, hr, hi]
  exact h

theorem FileLog.Indexed.clearIntent (h : log.Indexed) (fault : Option Nat) :
    (Platform.clearIntent log fault).2.Indexed := by
  obtain ⟨hr, hi⟩ := clearIntent_snd log fault
  rw [FileLog.Indexed, hr, hi]
  exact h

theorem FileLog.Indexed.writePair (h : log.Indexed) : (P.writePair log faults c).2.Indexed := by
  unfold Platform.writePair
  have h₁ := h.append (P := P) (faults .subject) c.subject
  revert h₁
  generalize P.append log (faults .subject) c.subject = o₁
  intro h₁
  obtain ⟨_ | ⟨⟩, log₁⟩ := o₁
  · exact h₁
  have h₂ := h₁.writeIntent (P := P) (faults .written) ⟨c.subject.id, true⟩
  simp only at h₂ ⊢
  revert h₂
  generalize P.writeIntent log₁ (faults .written) ⟨c.subject.id, true⟩ = o₂
  intro h₂
  obtain ⟨_ | ⟨⟩, log₂⟩ := o₂
  · exact h₂
  have h₃ := h₂.append (P := P) (faults .verdict) c.verdictRecord
  simp only at h₃ ⊢
  revert h₃
  generalize P.append log₂ (faults .verdict) c.verdictRecord = o₃
  intro h₃
  obtain ⟨_ | ⟨⟩, log₃⟩ := o₃
  · exact h₃
  exact h₃.clearIntent _

theorem FileLog.Indexed.commitInner (h : w.log.Indexed) :
    (P.commitInner rules faults signer w s p).writer.log.Indexed := by
  unfold Platform.commitInner
  split
  · exact h
  next c hc =>
  unfold Platform.persist
  have h₁ := h.writeIntent (P := P) (faults .intent) ⟨c.subject.id, false⟩
  revert h₁
  generalize P.writeIntent w.log (faults .intent) ⟨c.subject.id, false⟩ = o₁
  intro h₁
  obtain ⟨_ | ⟨⟩, log₁⟩ := o₁
  · exact h₁
  have h₂ : (P.writePair log₁ faults c).2.Indexed := FileLog.Indexed.writePair h₁
  simp only at h₂ ⊢
  revert h₂
  generalize P.writePair log₁ faults c = o₂
  intro h₂
  obtain ⟨_ | ⟨⟩, log₂⟩ := o₂
  · exact h₂
  simp only
  split
  · exact h₂
  · split <;> exact h₂

/-- Opening a directory gives an indexed log that is accepted. -/
theorem openWithMaxBytes_indexed
    (h : P.openWithMaxBytes rules file intent maxFileBytes = .ok w) :
    w.log.Indexed ∧ P.Accepts rules w.log.records ∧ w.recoveryRequired = false := by
  unfold Platform.openWithMaxBytes Platform.openFile at h
  simp only [bind_eq_ok, orSerde_eq_ok, pure, Except.pure, Except.ok.injEq,
    requireValidLog_eq_ok] at h
  obtain ⟨log₀, ⟨_, -, ⟨records, valid⟩, -, rfl⟩, _, -, log, hrecover, _, hacc, hash, -, rfl⟩ := h
  refine ⟨?_, hacc, rfl⟩
  unfold Platform.recover at hrecover
  split at hrecover
  · cases hrecover
    rfl
  · next subject _ =>
    simp only [bind_eq_ok, orSerde_eq_ok, orError_eq_ok] at hrecover
    obtain ⟨s, -, time, -, v, -, hlog⟩ := hrecover
    have hstart : (fileLogOver (file.take valid) intent records maxFileBytes).Indexed := rfl
    have happend := hstart.append (P := P) none v
    revert hlog
    generalize ho : P.append _ none v = o
    rw [fileLogOver, ho] at happend
    intro hlog
    obtain ⟨_ | ⟨⟩, log₂⟩ := o
    · cases hlog
    · cases hlog
      exact happend

end Indexed

theorem Opened.indexed (h : Opened P w) : w.log.Indexed := by
  induction h with
  | opened hopen => exact (openWithMaxBytes_indexed hopen).1
  | call rules faults signer s p _ ih => exact ih.commitInner

/-- A usable handle is the one over its records. -/
theorem Opened.eq_handleOver (h : Opened P w) (husable : w.recoveryRequired = false) :
    w = handleOver w.log.file w.log.intent w.log.records w.log.maxFileBytes w.rulesHash := by
  have hindex := h.indexed
  have hclock := h.inStep husable
  obtain ⟨⟨file, intent, records, index, maxFileBytes⟩, timeSource, rulesHash, recoveryRequired⟩ := w
  simp only [FileLog.Indexed, LogWriter.InStep, FileLog.lastTime] at hindex hclock husable
  rw [hindex, hclock, husable]
  rfl

/-! ## Logs of a writer -/

theorem Verified.writerLog (h : Verified P rules L s) : P.WriterLog L where
  even := by
    obtain ⟨k, hk⟩ := h.run.even
    omega
  times := fun i hi => h.time_eq hi
  ids := h.ids
  verdicts := by
    intro i hi hodd
    obtain ⟨k, rfl⟩ : ∃ k, i = 2 * k + 1 := ⟨i / 2, by omega⟩
    obtain ⟨t, t', -, hround, -⟩ := h.pair_at hi
    exact ⟨hround.verdict, _, hround.judged⟩

/-- One more pair of a commit. -/
theorem Platform.WriterLog.snoc {c : Prepared} (h : P.WriterLog w.log.records)
    (hp : Prepares P rules w s p c) (hread : P.ReadsVerdicts) (hclock : w.InStep) :
    P.WriterLog (w.log.records ++ [c.subject, c.verdictRecord]) := by
  obtain ⟨t, ht, hmat⟩ := hp.record
  obtain ⟨hid, henc, hv⟩ := materializeVerdict_eq_some hmat
  have hvtime : c.verdictRecord.time = t := by rw [hv]
  have hvkind : c.verdictRecord.kind = .verdict := by rw [hv]
  have hnext := hclock.next h.times hp.room
  have hlen : (w.log.records ++ [c.subject, c.verdictRecord]).length = w.log.records.length + 2 := by
    simp
  refine ⟨by have := h.even; omega, ?_, ?_, ?_⟩
  · intro i hi
    rcases Nat.lt_trichotomy i w.log.records.length with hlt | heq | hgt
    · rw [List.getElem_append_left hlt]
      exact h.times i hlt
    · subst heq
      rw [getElem_pair_left, hp.time, hnext]
    · obtain rfl : i = w.log.records.length + 1 := by omega
      rw [getElem_pair_right, hvtime, nextTime?_eq_some.mp ht, hnext]
  · intro r hr
    rw [List.mem_append, List.mem_cons, List.mem_singleton] at hr
    rcases hr with hr | rfl | rfl
    · exact h.ids r hr
    · exact hp.id
    · exact hid
  · intro i hi hodd
    by_cases hlt : i < w.log.records.length
    · rw [List.getElem_append_left hlt]
      exact h.verdicts i hlt hodd
    · have := h.even
      obtain rfl : i = w.log.records.length + 1 := by omega
      rw [getElem_pair_right]
      exact ⟨hvkind, _, hread.decode henc⟩

/-- **Every log of a usable handle is one.** -/
theorem Opened.writerLog (h : Opened P w) (hread : P.ReadsVerdicts) :
    w.recoveryRequired = false → P.WriterLog w.log.records := by
  induction h with
  | opened hopen =>
    obtain ⟨s, hv⟩ := accepts_iff.mp (openWithMaxBytes_indexed hopen).2.1
    exact fun _ => hv.writerLog
  | @call w rules faults signer s p hbuilt ih =>
    generalize ho : P.commitInner rules faults signer w s p = o
    obtain ⟨result, w', s'⟩ := o
    intro husable
    cases result with
    | ok x =>
      obtain ⟨c, -, hc⟩ := commitInner_eq_ok ho
      show P.WriterLog w'.log.records
      rw [hc.records]
      exact (ih hc.usable).snoc hc.toPrepares hread (hbuilt.inStep hc.usable)
    | error e =>
      rcases commitInner_eq_error ho with ⟨hr, -, hu⟩ | hu
      · show P.WriterLog w'.log.records
        rw [hr]
        exact ih (hu ▸ husable)
      · simp [hu] at husable

/-- The ids of such a log are all different. -/
theorem Platform.WriterLog.eq_of_id_eq (h : P.WriterLog L) (hs : P.HashSound L) {i j : Nat}
    (hi : i < L.length) (hj : j < L.length) (heq : L[i].id = L[j].id) : i = j := by
  have hrec := hs.eq_of_id_eq (List.getElem_mem hi) (List.getElem_mem hj)
    (h.ids _ (List.getElem_mem hi)) (h.ids _ (List.getElem_mem hj)) heq
  have hti := h.times i hi
  have htj := h.times j hj
  rw [hrec] at hti
  omega

/-! ## What has landed -/

/-- The records after the first one with the id; all of them for the head of an empty log. -/
def After (head : RecordId) (R T : List Record) : Prop :=
  if head = emptyHead then T = R
  else ∃ A r, R = A ++ r :: T ∧ r.id = head ∧ ∀ x ∈ A, x.id ≠ head

theorem startAfter_eq {head : RecordId} {T : List Record} (h : After head w.log.records T) :
    ∃ start, startAfter w head = .ok start ∧ w.log.records.drop start = T ∧
      start + T.length = w.log.records.length := by
  unfold After at h
  unfold startAfter
  split at h
  · next hempty =>
    rw [if_pos hempty]
    exact ⟨0, rfl, by simp [h], by simp [h]⟩
  · next hne =>
    obtain ⟨A, r, hR, hid, hfirst⟩ := h
    have hfind : w.log.records.findIdx? (fun r => r.id = head) = some A.length := by
      rw [hR, List.findIdx?_append]
      have hA : A.findIdx? (fun r => r.id = head) = none := by
        rw [List.findIdx?_eq_none_iff]
        intro x hx
        simpa using hfirst x hx
      simp [hA, List.findIdx?_cons, hid]
    rw [if_neg hne, hfind]
    refine ⟨A.length + 1, rfl, ?_, ?_⟩
    · rw [hR]
      simp
    · rw [hR]
      simp
      omega

theorem startAfter_missing {head : RecordId} (hne : head ≠ emptyHead)
    (h : ∀ r ∈ w.log.records, r.id ≠ head) :
    startAfter w head = .error (.headConflict head w.head) := by
  have hfind : w.log.records.findIdx? (fun r => r.id = head) = none := by
    rw [List.findIdx?_eq_none_iff]
    intro x hx
    simpa using h x hx
  rw [startAfter, if_neg hne, hfind]

/-- The head of a log is where its extensions begin. -/
theorem after_head (h : P.WriterLog L) (hs : P.HashSound L)
    (hzero : lastRecordId L = emptyHead → L = []) (X : List Record) : After (lastRecordId L) (L ++ X) X := by
  unfold After
  cases hlast : L.getLast? with
  | none =>
    obtain rfl := List.getLast?_eq_none_iff.mp hlast
    rw [if_pos (by rfl)]
    rfl
  | some r =>
    have hhead : lastRecordId L = r.id := by simp [lastRecordId, hlast]
    obtain ⟨A, rfl⟩ := List.getLast?_eq_some_iff.mp hlast
    rw [if_neg (fun hempty => by simpa using hzero hempty), hhead]
    refine ⟨A, r, by simp, rfl, ?_⟩
    intro x hx heq
    obtain ⟨i, hi, rfl⟩ := List.mem_iff_getElem.mp hx
    have hlen : (A ++ [r]).length = A.length + 1 := by simp
    have := h.eq_of_id_eq hs (i := i) (j := A.length) (by omega) (by omega)
      (by simpa [List.getElem_append_left hi] using heq)
    omega

/-- **The matching of a log written by a `LogWriter`** never fails: what it finds has landed. -/
theorem matchLanded_ok (hR : P.WriterLog R) (hps : ∀ p ∈ ps, p.kind ≠ .verdict) (pos : Nat) :
    ∃ m results, m ≤ ps.length ∧ P.matchLanded R pos ps = .ok ⟨results, ps.drop m, pos + 2 * m⟩ ∧
      Landed (ps.take m) (R.drop pos) := by
  induction ps generalizing pos with
  | nil => exact ⟨0, [], by simp, by simp [Platform.matchLanded], trivial⟩
  | cons p ps ih =>
    rw [Platform.matchLanded]
    cases hsubject : R[pos]? with
    | none => exact ⟨0, [], by simp, by simp, trivial⟩
    | some subject =>
      obtain ⟨hpos, rfl⟩ := List.getElem?_eq_some_iff.mp hsubject
      by_cases hmatch : proposalMatchesRecord p R[pos] = true
      · have hkind : R[pos].kind ≠ .verdict := by
          have hk : R[pos].kind = p.kind := by
            simp only [proposalMatchesRecord, Bool.and_eq_true, decide_eq_true_eq] at hmatch
            exact hmatch.1.1.1.2
          rw [hk]
          exact hps p List.mem_cons_self
        -- a subject is at an even position, so its verdict is there
        have heven : pos % 2 = 0 := by
          by_contra hodd
          exact hkind (hR.verdicts pos hpos (by omega)).1
        have hnext : pos + 1 < R.length := by
          have := hR.even
          omega
        obtain ⟨d, hd⟩ := (hR.verdicts (pos + 1) hnext (by omega)).2
        obtain ⟨m, results, hm, hrest, hlanded⟩ :=
          ih (fun q hq => hps q (List.mem_cons_of_mem _ hq)) (pos + 2)
        refine ⟨m + 1, (R[pos].id, d) :: results, by simpa using hm, ?_, ?_⟩
        · simp only [hmatch, Bool.true_eq_false, if_false, List.getElem?_eq_getElem hnext, hd, orSerde,
            orError, hrest, bind, Except.bind, pure, Except.pure, List.drop_succ_cons]
          congr 2
          omega
        · rw [List.take_succ_cons, List.drop_eq_getElem_cons hpos, List.drop_eq_getElem_cons hnext]
          exact ⟨hmatch, hlanded⟩
      · rw [Bool.not_eq_true] at hmatch
        simp only [hmatch, if_true]
        exact ⟨0, [], by simp, by simp, trivial⟩

end Bellbook
