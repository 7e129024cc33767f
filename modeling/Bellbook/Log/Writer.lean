import Bellbook.Log.Storage

/-!
# The log writer (`log/writer/core.rs`, `helpers.rs`, `intent.rs`)

The single writer of a log directory. A commit first prepares the complete subject/verdict pair
without touching anything (`prepare`) and then makes it durable step by step (`persist`); any
failure after the first intent write leaves the handle unusable until it is reopened. An `Outcome`
is the result of a call together with what it leaves behind: the handle and the caller's state.

The exclusive file lock is not part of the model: a `LogWriter` here is a handle that holds it.
-/

namespace Bellbook

open Std

structure LogWriter where
  log : FileLog
  timeSource : TimeSource
  rulesHash : Hash256
  recoveryRequired : Bool

/-- A call's result, the handle after it, and the caller's state after it. -/
structure Outcome (α : Type) where
  result : Except LogError α
  writer : LogWriter
  state : State

/-- The outcome with its result in a list. -/
def Outcome.singleton {α : Type} (o : Outcome α) : Outcome (List α) :=
  ⟨o.result.map fun x => [x], o.writer, o.state⟩

/-- Calls one after the other, up to the first that fails; their results are concatenated. -/
def runAll {α β : Type} (call : LogWriter → State → α → Outcome (List β)) :
    LogWriter → State → List α → Outcome (List β)
  | w, s, [] => ⟨.ok [], w, s⟩
  | w, s, a :: rest =>
    let o := call w s a
    match o.result with
    | .error e => ⟨.error e, o.writer, o.state⟩
    | .ok xs =>
      let o := runAll call o.writer o.state rest
      ⟨o.result.map (xs ++ ·), o.writer, o.state⟩

/-- The writes of one commit, in order. -/
inductive WriteStep where
  | intent | subject | written | verdict | clear
  deriving DecidableEq

/-- Which writes of a commit fail, and after how much of their effect. -/
abbrev Faults := WriteStep → Option Nat

/-- All file writes succeed. -/
def noFaults : Faults := fun _ => none

/-- `EMPTY_HEAD`. -/
def emptyHead : RecordId := 0

/-- `LogWriter::head`. -/
def LogWriter.head (w : LogWriter) : RecordId := lastRecordId w.log.records

/-- `LogWriter::scan`. -/
def LogWriter.scan (w : LogWriter) (lo hi : Time) : Option (List Record) := w.log.scan lo hi

structure CommitIntent where
  subjectId : RecordId
  written : Bool

instance : Serialize CommitIntent where
  toValue i := .object [("subject_id", toValue i.subjectId), ("written", toValue i.written)]

/-- A commit ready to be written: the subject, its verdict, and the verdict record. -/
structure Prepared where
  subject : Record
  verdict : VerdictData
  verdictRecord : Record

namespace Platform

variable (P : Platform)

/-! ## Pieces of a commit -/

/-- `materialize_verdict`. -/
def materializeVerdict (subject : Record) (time : Time) (verdict : VerdictData) : Option Record := do
  let data ← P.encode verdict
  P.withComputedId
    { id := 0
      space := subject.space
      thread := subject.thread
      time
      author := { id := "verifier", type := .verifier, signature := none }
      kind := .verdict
      schema := P.schemaId schemaVerdict
      data
      refs := [⟨.cause, subject.id⟩]
      evidence := .deterministic }

/-- The record a proposal becomes, before it has a signature and an id. -/
def materialize (w : LogWriter) (s : State) (p : Proposal) : Record where
  id := 0
  space := p.space
  thread := p.thread
  time := w.timeSource.next
  author := p.author
  kind := p.kind
  schema := p.schema
  data := p.data
  refs := sortAndDedupRefs p.refs
  evidence := P.deriveEvidence p.schema (refEvidences w.log.get s p.refs)

/-- Attach the signature of a signer, if there is one. -/
def attachSignature (signer : Option Hash256) (r : Record) : Option Record :=
  match signer with
  | none => some r
  | some secret => (P.sign secret r).map fun sig =>
      { r with author := { r.author with signature := some sig } }

/-- `ensure_writable`. -/
def ensureWritable (w : LogWriter) : Except LogError Unit :=
  refuseIf (w.recoveryRequired = true) .recoveryRequired

/-- `ensure_rules_match`. -/
def ensureRulesMatch (w : LogWriter) (rules : VerifierRules) : Except LogError Unit := do
  let rulesHash ← orSerde (P.sha256Canonical rules)
  refuseIf (rulesHash ≠ w.rulesHash) .rulesMismatch

/-- `ensure_state_matches`. -/
def ensureStateMatches (w : LogWriter) (s : State) : Except LogError Unit := do
  let expected ← orSerde (P.buildStateUnchecked w.log.records)
  refuseIf (expected ≠ s) .stateMismatch

/-- The part of `commit_inner` that makes the complete pair. -/
def preparePair (rules : VerifierRules) (signer : Option Hash256) (w : LogWriter) (s : State)
    (p : Proposal) : Except LogError Prepared := do
  -- a commit takes two times
  refuseIf (w.timeSource.exhausted = true) .timeExhausted
  let verdictTime ← orError (nextTime? w.timeSource.next) .timeExhausted
  let signed ← orSerde (P.attachSignature signer (P.materialize w s p))
  let subject ← orSerde (P.withComputedId signed)
  let verdict := P.verifyRecord rules w.log.records s subject
  let verdictRecord ← orSerde (P.materializeVerdict subject verdictTime verdict)
  P.ensureCapacityFor w.log [subject, verdictRecord]
  return { subject, verdict, verdictRecord }

/-- `commit_inner` up to the first write. -/
def prepare (rules : VerifierRules) (signer : Option Hash256) (w : LogWriter) (s : State)
    (p : Proposal) : Except LogError Prepared := do
  ensureWritable w
  P.ensureRulesMatch w rules
  P.ensureStateMatches w s
  P.preparePair rules signer w s p

/-- Write the intent file; a failed write leaves the old one or the new one. -/
def writeIntent (log : FileLog) (fault : Option Nat) (intent : CommitIntent) :
    Except LogError Unit × FileLog :=
  match P.canonicalJson intent, fault with
  | none, _ => (.error .io, log)
  | some _, some 0 => (.error .io, log)
  | some bytes, some _ => (.error .io, { log with intent := some bytes })
  | some bytes, none => (.ok (), { log with intent := some bytes })

/-- Remove the intent file. -/
def clearIntent (log : FileLog) (fault : Option Nat) : Except LogError Unit × FileLog :=
  match fault with
  | some 0 => (.error .io, log)
  | some _ => (.error .io, { log with intent := none })
  | none => (.ok (), { log with intent := none })

/-- The durable phase after the first intent write: append the subject, mark it written, append the
verdict, clear the intent. -/
def writePair (log : FileLog) (faults : Faults) (c : Prepared) : Except LogError Unit × FileLog :=
  match P.append log (faults .subject) c.subject with
  | (.error e, log) => (.error e, log)
  | (.ok (), log) =>
    match P.writeIntent log (faults .written) ⟨c.subject.id, true⟩ with
    | (.error e, log) => (.error e, log)
    | (.ok (), log) =>
      match P.append log (faults .verdict) c.verdictRecord with
      | (.error e, log) => (.error e, log)
      | (.ok (), log) => clearIntent log (faults .clear)

/-- `commit_inner` from the first write on. -/
def persist (faults : Faults) (w : LogWriter) (s : State) (c : Prepared) :
    Outcome (RecordId × VerdictData) :=
  match P.writeIntent w.log (faults .intent) ⟨c.subject.id, false⟩ with
  | (.error e, log) => ⟨.error e, { w with log }, s⟩
  | (.ok (), log) =>
    match P.writePair log faults c with
    | (.error e, log) => ⟨.error e, { w with log, recoveryRequired := true }, s⟩
    | (.ok (), log) =>
      match log.get c.subject.id with
      | none => ⟨.error .corruptedRecovery, { w with log, recoveryRequired := true }, s⟩
      | some subject =>
        match P.applyRecord s subject c.verdict with
        | none => ⟨.error .serdeJson, { w with log, recoveryRequired := true }, s⟩
        | some s' =>
          ⟨.ok (c.subject.id, c.verdict),
            { w with log, timeSource := w.timeSource.advance.advance, recoveryRequired := false },
            { s' with appliedUpTo := c.verdictRecord.time }⟩

/-- `commit_inner`. -/
def commitInner (rules : VerifierRules) (faults : Faults) (signer : Option Hash256)
    (w : LogWriter) (s : State) (p : Proposal) : Outcome (RecordId × VerdictData) :=
  match P.prepare rules signer w s p with
  | .error e => ⟨.error e, w, s⟩
  | .ok c => P.persist faults w s c

/-- `LogWriter::commit`. -/
def commit (rules : VerifierRules) (faults : Faults) (w : LogWriter) (s : State) (p : Proposal) :
    Outcome (RecordId × VerdictData) :=
  P.commitInner rules faults none w s p

/-- `LogWriter::commit_signed`, for a signer holding `secret`. -/
def commitSigned (rules : VerifierRules) (faults : Faults) (secret : Hash256) (w : LogWriter)
    (s : State) (p : Proposal) : Outcome (RecordId × VerdictData) :=
  P.commitInner rules faults (some secret) w s p

/-! ## Batches -/

/-- The sort key of a proposal in a batch. -/
def batchKey (p : Proposal) : Hash256 := (P.sha256Canonical p).getD (BitVec.allOnes 256)

/-- `sort_batch`. -/
def sortBatch (proposals : List Proposal) : List Proposal :=
  P.sortUnstable Proposal (fun a b => decide (P.batchKey a ≤ P.batchKey b)) proposals

/-- Commit proposals one after the other; the first error ends the batch. -/
def commitAll (rules : VerifierRules) (faults : Faults) :
    LogWriter → State → List Proposal → Outcome (List (RecordId × VerdictData)) :=
  runAll fun w s p => (P.commit rules faults w s p).singleton

/-- `LogWriter::batch_commit`. -/
def batchCommit (rules : VerifierRules) (faults : Faults) (w : LogWriter) (s : State)
    (proposals : List Proposal) : Outcome (List (RecordId × VerdictData)) :=
  P.commitAll rules faults w s (P.sortBatch proposals)

/-! ## Opening a directory -/

/-- `require_valid_log`. -/
def requireValidLog (rules : VerifierRules) (records : List Record) : Except LogError Unit :=
  let verdict := P.verifyLog rules records none
  refuseIf (verdict.result ≠ .accept) (.invalidExistingLog verdict.reason)

/-- The final record, when it is a subject whose verdict is missing. -/
def unverdictedTail (records : List Record) : Option Record :=
  records.getLast?.filter fun r => r.kind ≠ .verdict

/-- `LogWriter::recover`. -/
def recover (rules : VerifierRules) (log : FileLog) : Except LogError FileLog := do
  let log ← match unverdictedTail log.records with
    | none => pure log
    | some subject => do
      let prior := log.records.dropLast
      let s ← orSerde (P.buildStateUnchecked prior)
      let verdict := P.verifyRecord rules prior s subject
      let verdictTime ← orError (nextTime? subject.time) .timeExhausted
      let verdictRecord ← orSerde (P.materializeVerdict subject verdictTime verdict)
      match P.append log none verdictRecord with
      | (.error e, _) => .error e
      | (.ok (), log) => pure log
  return { log with intent := none }

/-- `LogWriter::open_with_max_bytes`, for a directory whose lock is free. -/
def openWithMaxBytes (rules : VerifierRules) (file : Bytes) (intent : Option Bytes)
    (maxFileBytes : Nat) : Except LogError LogWriter := do
  let log ← P.openFile file intent maxFileBytes
  let complete := match unverdictedTail log.records with
    | some _ => log.records.dropLast
    | none => log.records
  P.requireValidLog rules complete
  let log ← P.recover rules log
  P.requireValidLog rules log.records
  let rulesHash ← orSerde (P.sha256Canonical rules)
  return { log, timeSource := .fromLastTime log.lastTime, rulesHash, recoveryRequired := false }

end Platform

end Bellbook
