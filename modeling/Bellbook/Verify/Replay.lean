import Bellbook.Verify.Standing

/-!
# Log replay (`verify/verifier/replay.rs`, `checkpoint.rs`)

`verifyLog` is the whole verifier of a committed log, with or without a trusted checkpoint: it
validates the checkpoint, checks times and ids, and replays the records in subject/verdict pairs
while a prior index and the state grow. Each early return of the source is a `Replay` error that
carries the reason and the number of records replayed so far.

A `TrustedCheckpoint` can only be had from a log that was verified (`fromVerifiedLog`).
-/

namespace Bellbook

open Std

structure LogVerdict where
  result : VerdictResult
  reason : Option ReasonCode
  checkedRecords : Nat
  lastTime : Time
  retractedRecords : IdSet
  taintedRecords : IdSet
  standing : StandingSection
  deriving DecidableEq

structure Checkpoint where
  logLength : Nat
  lastTime : Time
  lastRecordId : RecordId
  stateHash : Hash256
  logHash : Hash256
  deriving DecidableEq

structure TrustedCheckpoint where
  checkpoint : Checkpoint
  rulesHash : Hash256
  deriving DecidableEq

/-- What the replay loop carries: the state, the prior index, the records replayed cleanly. -/
structure ReplayState where
  state : State
  index : PriorIndex
  checked : Nat

/-- The reason of an early return, with the number of records replayed before it. -/
structure Rejection where
  reason : ReasonCode
  checked : Nat
  deriving DecidableEq

/-- An early return, or the loop's state. -/
abbrev Replay := Except Rejection

theorem bind_eq_ok {ε α β : Type} {x : Except ε α} {f : α → Except ε β} {b : β} :
    (x >>= f) = .ok b ↔ ∃ a, x = .ok a ∧ f a = .ok b := by
  cases x <;> simp [bind, Except.bind]

theorem map_eq_ok {ε α β : Type} {x : Except ε α} {f : α → β} {b : β} :
    x.map f = .ok b ↔ ∃ a, x = .ok a ∧ f a = b := by
  cases x <;> simp [Except.map]

/-- `reject`. -/
def rejectLog (rejection : Rejection) (records : List Record) : LogVerdict where
  result := .reject
  reason := some rejection.reason
  checkedRecords := rejection.checked
  lastTime := lastTime records
  retractedRecords := ∅
  taintedRecords := ∅
  standing := {}

/-- The time that must follow `t`; there is none after `u64::MAX`. -/
def nextTime? (t : Time) : Option Time := if t.toNat = 18446744073709551615 then none else some (t + 1)

/-- Every record's time is its predecessor's plus one. -/
def timesConsecutive : List Record → Bool
  | a :: b :: rest => nextTime? a.time = some b.time && timesConsecutive (b :: rest)
  | _ => true

/-- Genesis rule: logical time starts at 1. -/
def startsAtOne : List Record → Bool
  | [] => true
  | r :: _ => r.time = 1

/-- Id of the last record; all zeros for an empty prefix. -/
def lastRecordId (records : List Record) : RecordId := (records.getLast?.map Record.id).getD 0

namespace Platform

variable (P : Platform)

/-- `create_checkpoint`. -/
def createCheckpoint (records : List Record) (s : State) : Option Checkpoint := do
  let stateHash ← P.sha256Canonical s
  return {
    logLength := records.length
    lastTime := lastTime records
    lastRecordId := lastRecordId records
    stateHash
    logHash := P.sha256ConcatIds (records.map Record.id) }

/-- The checkpoint section of `verify_log`: the state and index to resume with. -/
def resume (rules : VerifierRules) (records : List Record) (trusted : TrustedCheckpoint) :
    Except ReasonCode (State × PriorIndex) :=
  let cp := trusted.checkpoint
  let pre := records.take cp.logLength
  if P.sha256Canonical rules ≠ some trusted.rulesHash then .error .invalidCheckpoint
  else if records.length < cp.logLength then .error .invalidCheckpoint
  else if P.sha256ConcatIds (pre.map Record.id) ≠ cp.logHash then .error .invalidCheckpoint
  else if (records[cp.logLength]?).any (fun r => r.kind = .verdict) then .error .invalidCheckpoint
  else match P.buildStateUnchecked pre with
    | none => .error .invalidPayload
    | some s =>
      match P.sha256Canonical s with
      | none => .error .invalidPayload
      | some stateHash =>
        if cp.lastTime ≠ lastTime pre ∨ cp.lastRecordId ≠ lastRecordId pre ∨
            cp.stateHash ≠ stateHash then .error .invalidCheckpoint
        else .ok (s, PriorIndex.of pre)

/-- A verdict that follows no subject: it is verified and its subject folded. -/
def replayLone (rules : VerifierRules) (records : List Record) (pos : Nat) (st : ReplayState)
    (r : Record) : Replay ReplayState :=
  let prior := st.index.view records
  match P.checkVerdictRecord rules prior r with
  | some reason => .error ⟨reason, st.checked⟩
  | none =>
    match P.decode VerdictData r.data, r.firstCause with
    | some stored, some subjectId =>
      match (match prior.find subjectId with
        | some subject => P.applyRecord st.state subject stored
        | none => some st.state) with
      | none => .error ⟨.invalidPayload, st.checked⟩
      | some s => .ok
        { state := { s with appliedUpTo := r.time }
          index := st.index.insert pos r
          checked := st.checked + 1 }
    | _, _ => .error ⟨.invalidPayload, st.checked⟩

/-- A subject at `pos` and the verdict that must follow it. -/
def replayPair (rules : VerifierRules) (records : List Record) (pos : Nat) (st : ReplayState)
    (r next : Record) : Replay ReplayState :=
  if next.kind ≠ .verdict then .error ⟨.invalidPayload, st.checked⟩
  else
    -- the subject enters the index first, so that its verdict's Cause ref resolves
    let index := st.index.insert pos r
    let prior := index.view records
    match P.checkVerdictRecord rules prior next with
    | some reason => .error ⟨reason, st.checked⟩
    | none =>
      if (next.refs.head?.map Ref.target) ≠ some r.id then .error ⟨.invalidPayload, st.checked⟩
      else
        let recomputed := verdictOf (P.checkRecord rules prior st.state r)
        match P.decode VerdictData next.data with
        | none => .error ⟨.invalidPayload, st.checked⟩
        | some stored =>
          if recomputed.result ≠ stored.result ∨ recomputed.reason ≠ stored.reason then
            .error ⟨recomputed.reason.getD .invalidPayload, st.checked⟩
          else match P.applyRecord st.state r stored with
            | none => .error ⟨.invalidPayload, st.checked⟩
            | some s => .ok
              { state := { s with appliedUpTo := next.time }
                index := index.insert (pos + 1) next
                checked := st.checked + 2 }

/-- The replay loop over the records from `pos` on. -/
def replayLoop (rules : VerifierRules) (records : List Record) :
    Nat → List Record → ReplayState → Replay ReplayState
  | _, [], st => .ok st
  | pos, r :: rest, st =>
    if r.kind = .verdict then
      match P.replayLone rules records pos st r with
      | .error e => .error e
      | .ok st => replayLoop rules records (pos + 1) rest st
    else match rest with
      | [] => .error ⟨.invalidPayload, st.checked⟩
      | next :: rest =>
        match P.replayPair rules records pos st r next with
        | .error e => .error e
        | .ok st => replayLoop rules records (pos + 2) rest st

/-- The passes over times and ids, and then the loop from `start` on. -/
def replayFrom (rules : VerifierRules) (records : List Record) (start : Nat) (s : State)
    (index : PriorIndex) : Replay ReplayState :=
  if timesConsecutive records = false then .error ⟨.invalidPayload, 0⟩
  else if startsAtOne records = false then .error ⟨.invalidPayload, 0⟩
  else if records.all (fun r => P.computeId r = some r.id) = false then .error ⟨.invalidPayload, 0⟩
  else P.replayLoop rules records start (records.drop start) ⟨s, index, 0⟩

/-- `verify_log`, up to the report. -/
def replayLog (rules : VerifierRules) (records : List Record)
    (checkpoint : Option TrustedCheckpoint) : Replay ReplayState :=
  match checkpoint with
  | none => P.replayFrom rules records 0 State.empty {}
  | some trusted =>
    match P.resume rules records trusted with
    | .error reason => .error ⟨reason, 0⟩
    | .ok (s, index) => P.replayFrom rules records trusted.checkpoint.logLength s index

/-- `verify_log`. -/
def verifyLog (rules : VerifierRules) (records : List Record)
    (checkpoint : Option TrustedCheckpoint) : LogVerdict :=
  match P.replayLog rules records checkpoint with
  | .error rejection => rejectLog rejection records
  | .ok st =>
    { result := .accept
      reason := none
      checkedRecords := st.checked
      lastTime := lastTime records
      retractedRecords := st.state.retractedRecords
      taintedRecords := st.state.taintedRecords
      standing := P.deriveStanding records st.state }

/-- `verify_log` without a checkpoint accepts. -/
def Accepts (rules : VerifierRules) (records : List Record) : Prop :=
  (P.verifyLog rules records none).result = .accept

instance (rules : VerifierRules) (records : List Record) : Decidable (P.Accepts rules records) :=
  inferInstanceAs (Decidable (_ = _))

/-- `verify_and_build_state`. -/
def verifyAndBuildState (rules : VerifierRules) (records : List Record) :
    Except LogVerdict State :=
  let verdict := P.verifyLog rules records none
  if verdict.result ≠ .accept then .error verdict
  else match P.buildStateUnchecked records with
    | some s => .ok s
    | none => .error { verdict with result := .reject, reason := some .invalidPayload }

/-- `TrustedCheckpoint::from_verified_log`. -/
def fromVerifiedLog (rules : VerifierRules) (records : List Record) : Option TrustedCheckpoint :=
  if (P.verifyLog rules records none).result ≠ .accept then none
  else do
    let s ← P.buildStateUnchecked records
    let checkpoint ← P.createCheckpoint records s
    let rulesHash ← P.sha256Canonical rules
    return { checkpoint, rulesHash }

end Platform

end Bellbook
