import Bellbook.Receipt.Validate

/-!
# The validator of epoch 0.3

What a receipt of epoch 0.3 was validated with, built from the definitions of that epoch: fifteen kinds,
seventeen schemas, Results and Candidates without artifacts, and a vocabulary of reasons without
`ArtifactRefInvalid` and `RequirementInvalid`. Only the functions that read one of these are written
again; every other check is the one of the current epoch.

* `DeserializeV03` are the strict decoders of the payloads whose definition has changed since.
* `checkSubjectV03` and `replayLoopV03` follow `checkSubject` and `replayLoop`.
* `validateV03` gives the decision on a receipt; a receipt that names a later kind is not read at all.
-/

namespace Bellbook

open Std

/-! ## Payloads -/

/-- The reasons of epoch 0.3. -/
def ReasonCode.inV03 : ReasonCode → Bool
  | .artifactRefInvalid | .requirementInvalid => false
  | _ => true

/-- The decoder of a payload type in epoch 0.3. -/
class DeserializeV03 (α : Type) where
  fromValueV03 : Json → Option α

export DeserializeV03 (fromValueV03)

/-- `ResultData` of three fields. -/
instance : DeserializeV03 ResultData where
  fromValueV03 v := do
    let f ← structFields true ["action_id", "status", "output"] v
    return {
      actionId := ← f.required "action_id"
      status := ← f.required "status"
      output := ← f.required "output"
      artifacts := none }

/-- `CandidateData` of four fields. -/
instance : DeserializeV03 CandidateData where
  fromValueV03 v := do
    let f ← structFields true ["source", "basis", "parent", "note"] v
    return {
      source := ← f.required "source"
      basis := ← f.required "basis"
      parent := ← f.defaulted "parent" none
      note := ← f.defaulted "note" none
      artifacts := none }

/-- A verdict with a reason of the epoch. -/
instance : DeserializeV03 VerdictData where
  fromValueV03 v := (fromValue v).filter fun d => d.reason.all ReasonCode.inV03

/-- A Refusal with a reason of the epoch. -/
instance : DeserializeV03 RefusalData where
  fromValueV03 v := (fromValue v).filter fun d => d.reasonCode.all ReasonCode.inV03

namespace Platform

variable (P : Platform)

def decodeV03 (α : Type) [DeserializeV03 α] (data : Bytes) : Option α :=
  (P.readJson data).bind fromValueV03

def decodesCanonicallyV03 (α : Type) [Serialize α] [DeserializeV03 α] (data : Bytes) : Bool :=
  match P.decodeV03 α data with
  | some value => P.canonicalJson value = some data
  | none => false

/-- `evaluation_summary`, of the one schema of the epoch. -/
def evaluationSummaryV03 (schema : Hash256) (data : Bytes) : Option (RecordId × String × String) :=
  if schema = P.schemaId schemaEvaluation then P.evaluationSummary schema data else none

/-! ## Kind-specific rules -/

/-- `check_verdict_record`. -/
def checkVerdictRecordV03 (rules : VerifierRules) (prior : Prior) (r : Record) : Option ReasonCode :=
  rejectIf (P.computeId r ≠ some r.id) .invalidPayload <|>
  rejectIf (r.schema ≠ P.schemaId schemaVerdict) .kindSchemaMismatch <|>
  rejectIf (r.author.type ≠ .verifier) .invalidPayload <|>
  rejectIf (r.author.signature ≠ none) .invalidPayload <|>
  rejectIf (r.space ≠ rules.space) .invalidPayload <|>
  rejectIf (r.evidence ≠ .deterministic) .invalidPayload <|>
  rejectIf (P.decodesCanonicallyV03 VerdictData r.data = false) .invalidPayload <|>
  match r.refs with
  | [ref] =>
    rejectIf (ref.type ≠ .cause) .invalidPayload <|>
    orReject (prior.find ref.target) .refUnresolved fun subject =>
      rejectIf (subject.kind = .verdict) .invalidPayload <|>
      rejectIf (subject.space ≠ r.space ∨ subject.thread ≠ r.thread) .invalidPayload <|>
      rejectIf (prior.hasVerdictFor ref.target = true) .invalidPayload
  | _ => some .invalidPayload

/-- `check_result`. -/
def checkResultV03 (rules : VerifierRules) (prior : Prior) (s : State) (r : Record) :
    Option ReasonCode :=
  orReject (P.decodeV03 ResultData r.data) .invalidPayload fun data =>
    rejectIf (data.actionId ∉ s.openActions) .actionClosed <|>
    orReject (prior.find data.actionId) .actionClosed fun action =>
      rejectIf (action.thread ≠ r.thread ∨ action.space ≠ r.space) .actionClosed <|>
      orReject (P.decode ActionData action.data) .invalidPayload fun actionData =>
        (match actionData.execMode with
          | .external =>
            rejectIf (r.schema ≠ P.schemaId schemaResultExternal) .externalReceiptRequired <|>
            rejectIf (r.author.signature = none) .signatureMissing <|>
            rejectIf (r.author.id ∉ rules.authorKeys) .signatureInvalid
          | .internal =>
            rejectIf (r.schema = P.schemaId schemaResultExternal) .invalidPayload) <|>
        rejectIf (r.onlyRef .cause data.actionId = false) .invalidPayload

/-- `check_refusal`. -/
def checkRefusalV03 (prior : Prior) (s : State) (r : Record) : Option ReasonCode :=
  orReject (P.decodeV03 RefusalData r.data) .invalidPayload fun data =>
  orReject (prior.find data.targetId) .requestMissing fun t =>
    (match data.targetKind with
      | .action =>
        rejectIf (t.kind ≠ .action) .invalidPayload <|>
        rejectIf (data.targetId ∉ s.openActions) .actionClosed <|>
        rejectIf (t.thread ≠ r.thread ∨ t.space ≠ r.space) .actionClosed
      | .request =>
        rejectIf (t.kind ≠ .request) .invalidPayload <|>
        rejectIf (data.targetId ∉ s.activeRequests) .requestMissing <|>
        rejectIf (t.thread ≠ r.thread ∨ t.space ≠ r.space) .requestMissing
      | .verifiedEffect =>
        rejectIf (t.kind ≠ .result ∨ t.schema ≠ P.schemaId schemaResultEffectConfirmation)
          .invalidPayload <|>
        rejectIf (data.targetId ∉ s.acceptedRecords) .invalidPayload <|>
        rejectIf (t.thread ≠ r.thread ∨ t.space ≠ r.space) .invalidPayload) <|>
    rejectIf (r.onlyRef .cause data.targetId = false) .invalidPayload

/-- The result a task cites. -/
def checkTaskResultV03 (prior : Prior) (s : State) (r : Record) (requestId : RecordId)
    (task : PlanTask) : Option ReasonCode :=
  match task.resultRecordId with
  | none => none
  | some resultId =>
    rejectIf (task.status ≠ .done ∧ task.status ≠ .failed) .invalidPayload <|>
    orReject (prior.find resultId) .invalidPayload fun result =>
      rejectIf (result.kind ≠ .result ∨ resultId ∉ s.acceptedRecords ∨ result.thread ≠ r.thread ∨
        result.space ≠ r.space) .invalidPayload <|>
      orReject (P.decodeV03 ResultData result.data) .invalidPayload fun resultData =>
      orReject (prior.find resultData.actionId) .invalidPayload fun action =>
      orReject (P.decode ActionData action.data) .invalidPayload fun actionData =>
        rejectIf (actionData.requestId ≠ requestId) .invalidPayload

/-- `check_plan`. -/
def checkPlanV03 (prior : Prior) (s : State) (r : Record) : Option ReasonCode :=
  orReject (P.decode PlanData r.data) .invalidPayload fun data =>
    let ids := data.tasks.map PlanTask.id
    rejectIf (r.onlyRef .cause data.requestId = false) .requestMissing <|>
    withActiveRequest prior s r data.requestId fun _ =>
      rejectIf (data.tasks = []) .invalidPayload <|>
      rejectIf (¬ids.Nodup) .invalidPayload <|>
      rejectIf (∃ t ∈ data.tasks, ∃ dep ∈ t.dependsOn ++ t.inputsFrom, dep ∉ ids)
        .invalidPayload <|>
      data.tasks.findSome? (P.checkTaskResultV03 prior s r data.requestId) <|>
      rejectIf (P.hasCycle data.tasks = true) .invalidPayload <|>
      rejectIf (planStatusInvalid data = true) .invalidPayload

/-- `check_candidate`. -/
def checkCandidateV03 (rules : VerifierRules) (prior : Prior) (s : State) (r : Record) :
    Option ReasonCode :=
  orReject (P.decodeV03 CandidateData r.data) .invalidPayload fun data =>
    rejectIf (sourceBindingWellFormed data.source = false) .sourceBindingInvalid <|>
    rejectIf (data.parent.any (fun p => (resolveCandidate prior s r p).isNone) = true)
      .payloadRefUnresolved <|>
    orReject ((refTargets .cause r.refs).mapM prior.find) .refUnresolved fun causes =>
      P.checkBasis rules s data causes

/-- `check_evaluation`, of the one shape of the epoch. -/
def checkEvaluationV03 (prior : Prior) (s : State) (r : Record) : Option ReasonCode :=
  orReject (P.decode EvaluationData r.data) .invalidPayload fun data =>
  orReject (resolveCandidate prior s r data.candidate) .payloadRefUnresolved fun _ =>
    rejectIf (r.uses data.candidate = false) .evaluationInvalid

/-- A winner meets the configured minimum source binding. -/
def checkWinnerBindingV03 (prior : Prior) (winner : RecordId) : Option ReasonCode :=
  orReject (prior.find winner) .selectionInvalid fun t =>
  orReject (P.decodeV03 CandidateData t.data) .invalidPayload fun cd =>
    rejectIf (cd.source.binding ≠ .manifest) .selectionInvalid

/-- The rules of the outcome. -/
def checkOutcomeV03 (rules : VerifierRules) (prior : Prior) (data : SelectionData)
    (usedEvaluations : Nat) : Option ReasonCode :=
  match data.outcome with
  | .selected candidates =>
    rejectIf (candidates = [] ∨ ¬candidates.Nodup ∨ candidates.all (· ∈ data.considered) = false)
      .selectionInvalid <|>
    (if rules.minBinding = .manifest then
      (idSetOf candidates).toList.findSome? (P.checkWinnerBindingV03 prior)
    else none) <|>
    rejectIf (rules.selectionRequiresEvaluation = true ∧ usedEvaluations = 0) .selectionInvalid
  | .none => none

/-- `check_selection`. -/
def checkSelectionV03 (rules : VerifierRules) (prior : Prior) (s : State) (r : Record) :
    Option ReasonCode :=
  orReject (P.decode SelectionData r.data) .invalidPayload fun data =>
    let used := usedEvaluations prior s r
    rejectIf (data.considered = [] ∨ rules.maxConsidered.toNat < data.considered.length)
      .selectionInvalid <|>
    rejectIf (¬data.considered.Nodup) .selectionInvalid <|>
    (data.considered.findSome? fun cid =>
      orReject (resolveCandidate prior s r cid) .payloadRefUnresolved fun _ => none) <|>
    (used.findSome? fun t =>
      orReject (P.evaluationSummaryV03 t.schema t.data) .invalidPayload fun summary =>
        rejectIf (summary.1 ∉ data.considered) .selectionInvalid) <|>
    P.checkOutcomeV03 rules prior data used.length <|>
    match P.resolveSelectionApproval rules prior s r data with
    | .error reason => some reason
    | .ok approval =>
      rejectIf (idSetOf (refTargets .require r.refs) ≠
        idSetOf (data.outcome.winners ++ approval.toList)) .selectionInvalid <|>
      P.checkReaffirmation rules prior r data

/-- `check_kind_specific`, of the fifteen kinds. -/
def checkKindSpecificV03 (rules : VerifierRules) (prior : Prior) (s : State) (r : Record) :
    Option ReasonCode :=
  match r.kind with
  | .request => P.checkRequest prior s r
  | .action => P.checkAction prior s r
  | .result => P.checkResultV03 rules prior s r
  | .refusal => P.checkRefusalV03 prior s r
  | .usage => P.checkUsage prior s r
  | .summary => P.checkSummary rules r
  | .response => P.checkResponse prior s r
  | .approval => P.checkApproval r
  | .plan => P.checkPlanV03 prior s r
  | .retraction => P.checkRetraction rules prior s r
  | .candidate => P.checkCandidateV03 rules prior s r
  | .evaluation => P.checkEvaluationV03 prior s r
  | .selection => P.checkSelectionV03 rules prior s r
  | .capability | .verdict | .requirement => none

/-! ## The generic checks -/

/-- The payload type of each of the seventeen schemas. -/
def payloadTestsV03 : List (String × (Bytes → Bool)) :=
  [(schemaRequest, P.decodesCanonically RequestData),
    (schemaAction, P.decodesCanonically ActionData),
    (schemaResponse, P.decodesCanonically ResponseData),
    (schemaResult, P.decodesCanonicallyV03 ResultData),
    (schemaResultExternal, P.decodesCanonicallyV03 ResultData),
    (schemaResultEffectConfirmation, P.decodesCanonicallyV03 ResultData),
    (schemaCapability, P.decodesCanonically CapabilityData),
    (schemaApproval, P.decodesCanonically ApprovalData),
    (schemaSummary, P.decodesCanonically SummaryData),
    (schemaRefusal, P.decodesCanonicallyV03 RefusalData),
    (schemaUsage, P.decodesCanonically UsageData),
    (schemaVerdict, P.decodesCanonicallyV03 VerdictData),
    (schemaPlan, P.decodesCanonically PlanData),
    (schemaRetraction, P.decodesCanonically RetractionData),
    (schemaCandidate, P.decodesCanonicallyV03 CandidateData),
    (schemaEvaluation, P.decodesCanonically EvaluationData),
    (schemaSelection, P.decodesCanonically SelectionData)]

/-- `check_payload_decode`. -/
def checkPayloadDecodeV03 (r : Record) : Option ReasonCode :=
  orReject (P.payloadTestsV03.find? fun t => r.schema = P.schemaId t.1) .unknownSchema fun t =>
    rejectIf (t.2 r.data = false) .invalidPayload

/-- `check_record` of a record that is not a verdict. -/
def checkSubjectV03 (rules : VerifierRules) (prior : Prior) (s : State) (r : Record) :
    Option ReasonCode :=
  rejectIf (P.computeId r ≠ some r.id) .invalidPayload <|>
  rejectIf (adjacentAll (fun a b => decide (Ref.lt a b)) r.refs = false) .invalidPayload <|>
  rejectIf (r.space ≠ rules.space) .invalidPayload <|>
  orReject rules.kindSchemaMap[r.schema]? .unknownSchema fun expectedKind =>
  rejectIf (r.kind ≠ expectedKind) .kindSchemaMismatch <|>
  checkAuthorRole rules r <|>
  P.checkSignature rules r <|>
  r.refs.findSome? (checkRef prior s r) <|>
  P.checkReplacement prior s r <|>
  P.checkEvidence rules prior s r <|>
  P.checkPayloadDecodeV03 r <|>
  P.checkKindSpecificV03 rules prior s r

/-! ## The fold and the replay -/

/-- `apply_accepted`, after what every kind does. -/
def foldKindV03 (s : State) (r : Record) : Option State :=
  match r.kind with
  | .result => do
    let data ← P.decodeV03 ResultData r.data
    return s.closeAction data.actionId
  | .refusal => do
    let data ← P.decodeV03 RefusalData r.data
    return s.foldRefusal data
  | .requirement => some s
  | _ => P.foldKind s r

/-- `apply_record`. -/
def applyRecordV03 (s : State) (r : Record) (verdict : VerdictData) : Option State :=
  match verdict.result with
  | .accept => P.foldKindV03 (s.accept r) r
  | .reject => some s

/-- A verdict that follows no subject. -/
def replayLoneV03 (rules : VerifierRules) (records : List Record) (pos : Nat) (st : ReplayState)
    (r : Record) : Replay ReplayState :=
  let prior := st.index.view records
  match P.checkVerdictRecordV03 rules prior r with
  | some reason => .error ⟨reason, st.checked⟩
  | none =>
    match P.decodeV03 VerdictData r.data, r.firstCause with
    | some stored, some subjectId =>
      match (match prior.find subjectId with
        | some subject => P.applyRecordV03 st.state subject stored
        | none => some st.state) with
      | none => .error ⟨.invalidPayload, st.checked⟩
      | some s => .ok
        { state := { s with appliedUpTo := r.time }
          index := st.index.insert pos r
          checked := st.checked + 1 }
    | _, _ => .error ⟨.invalidPayload, st.checked⟩

/-- A subject at `pos` and the verdict that must follow it. -/
def replayPairV03 (rules : VerifierRules) (records : List Record) (pos : Nat) (st : ReplayState)
    (r next : Record) : Replay ReplayState :=
  if next.kind ≠ .verdict then .error ⟨.invalidPayload, st.checked⟩
  else
    let index := st.index.insert pos r
    let prior := index.view records
    match P.checkVerdictRecordV03 rules prior next with
    | some reason => .error ⟨reason, st.checked⟩
    | none =>
      if (next.refs.head?.map Ref.target) ≠ some r.id then .error ⟨.invalidPayload, st.checked⟩
      else
        let recomputed := verdictOf (P.checkSubjectV03 rules prior st.state r)
        match P.decodeV03 VerdictData next.data with
        | none => .error ⟨.invalidPayload, st.checked⟩
        | some stored =>
          if recomputed.result ≠ stored.result ∨ recomputed.reason ≠ stored.reason then
            .error ⟨recomputed.reason.getD .invalidPayload, st.checked⟩
          else match P.applyRecordV03 st.state r stored with
            | none => .error ⟨.invalidPayload, st.checked⟩
            | some s => .ok
              { state := { s with appliedUpTo := next.time }
                index := index.insert (pos + 1) next
                checked := st.checked + 2 }

/-- The replay loop over the records from `pos` on. -/
def replayLoopV03 (rules : VerifierRules) (records : List Record) :
    Nat → List Record → ReplayState → Replay ReplayState
  | _, [], st => .ok st
  | pos, r :: rest, st =>
    if r.kind = .verdict then
      match P.replayLoneV03 rules records pos st r with
      | .error e => .error e
      | .ok st => replayLoopV03 rules records (pos + 1) rest st
    else match rest with
      | [] => .error ⟨.invalidPayload, st.checked⟩
      | next :: rest =>
        match P.replayPairV03 rules records pos st r next with
        | .error e => .error e
        | .ok st => replayLoopV03 rules records (pos + 2) rest st

/-- The passes over times and ids, and then the loop. -/
def replayLogV03 (rules : VerifierRules) (records : List Record) : Replay ReplayState :=
  if timesConsecutive records = false then .error ⟨.invalidPayload, 0⟩
  else if startsAtOne records = false then .error ⟨.invalidPayload, 0⟩
  else if records.all (fun r => P.computeId r = some r.id) = false then .error ⟨.invalidPayload, 0⟩
  else P.replayLoopV03 rules records 0 records ⟨State.empty, {}, 0⟩

end Platform

/-! ## Validation -/

/-- What a validator decides about a receipt. -/
structure Decision where
  status : ValidationStatus
  reason : Option ReasonCode
  retractedRecords : IdSet
  taintedRecords : IdSet
  deriving DecidableEq

/-- The decision of a report. -/
def Report.decision (report : Report) : Decision :=
  ⟨report.status, report.reason, report.retractedRecords, report.taintedRecords⟩

/-- A structural failure. -/
def Decision.invalid : Decision := ⟨.invalid, none, ∅, ∅⟩

/-- Every kind a receipt names, in its rules and records, is one of the fifteen. -/
def Receipt.kindsInV03 (r : Receipt) : Bool :=
  r.records.all (fun x => x.kind ≠ .requirement) &&
  r.rules.kindSchemaMap.toList.all (fun p => p.2 ≠ .requirement) &&
  .requirement ∉ r.rules.signatureRequiredKinds && .requirement ∉ r.rules.evidenceThresholds

namespace Platform

variable (P : Platform)

/-- `Receipt::from_bytes`: a kind that is not one of the fifteen is not read. -/
def fromBytesV03 (bytes : Bytes) : Option Receipt := (P.fromBytes bytes).filter Receipt.kindsInV03

/-- The decision on a replayed log. -/
def decisionV03 : Replay ReplayState → Decision
  | .error rejection => ⟨.invalid, some rejection.reason, ∅, ∅⟩
  | .ok st =>
    ⟨if st.state.retractedRecords.isEmpty && st.state.taintedRecords.isEmpty then .clean else .tainted,
      none, st.state.retractedRecords, st.state.taintedRecords⟩

/-- `validate_with_limits`, as epoch 0.3 knew it. -/
def validateV03 (limits : ValidationLimits) (bytes : Bytes) : Decision :=
  if limits.maxBytes < bytes.length then .invalid
  else match P.fromBytesV03 bytes with
    | none => .invalid
    | some r =>
      if (limits.check r).isSome ∨ r.specVersion ≠ "0.3" ∨ (checkDeclarations r).isSome ∨
          P.sha256Canonical r.rules = none then .invalid
      else decisionV03 (P.replayLogV03 (P.rulesForEpoch r.rules schemasV03) r.records)

end Platform

end Bellbook
