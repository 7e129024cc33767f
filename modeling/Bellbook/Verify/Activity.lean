import Bellbook.Verify.Prior

/-!
# Requests, actions and their lifecycle (`verify/verifier/activity.rs`, `lifecycle.rs`)

The kind-specific rules of Request, Action, Result, Refusal, Usage, Summary and Response records.
-/

namespace Bellbook

open Std

/-- Whether one type of ref occurs exactly once, with the given target. -/
def Record.onlyRef (r : Record) (type : RefType) (target : RecordId) : Bool :=
  refTargets type r.refs = [target]

/-- Whether an optional expiry has passed at `time`. -/
def expired (time : Time) (expiry : Option Time) : Bool :=
  match expiry with
  | some e => e ≤ time
  | none => false

/-- The Request a record serves: active, found, in the record's thread and space. -/
def withActiveRequest (prior : Prior) (s : State) (r : Record) (requestId : RecordId)
    (k : Record → Option ReasonCode) : Option ReasonCode :=
  rejectIf (requestId ∉ s.activeRequests) .requestMissing <|>
  orReject (prior.find requestId) .requestMissing fun request =>
    rejectIf (request.thread ≠ r.thread ∨ request.space ≠ r.space) .requestMissing <|> k request

/-- One approval slot: the approval it holds, if that approval can be used at all, with its
payload bytes. -/
def usableApproval (prior : Prior) (s : State) (slot : Option RecordId) :
    Option (RecordId × Bytes) := do
  let approvalId ← slot
  let approval ← prior.find approvalId
  if s.usable approvalId then some (approvalId, approval.data) else none

/-- The parent and the Cause edges of a Request state different delegations. -/
def parentageInvalid (data : RequestData) (causeTargets : List RecordId) : Bool :=
  match data.parentRequestId with
  | none => causeTargets ≠ []
  | some pid => causeTargets ≠ [pid]

namespace Platform

variable (P : Platform)

/-- `check_request`. -/
def checkRequest (prior : Prior) (s : State) (r : Record) : Option ReasonCode :=
  orReject (P.decode RequestData r.data) .invalidPayload fun data =>
    ((refTargets .cause r.refs).findSome? fun target =>
      orReject (prior.find target) .refUnresolved fun parent =>
        rejectIf (parent.kind ≠ .request) .invalidPayload <|>
        rejectIf (parent.thread ≠ r.thread) .invalidPayload <|>
        rejectIf (target ∉ s.acceptedRecords) .requestMissing) <|>
    rejectIf (parentageInvalid data (refTargets .cause r.refs) = true) .invalidPayload

/-! ## Actions -/

/-- Priorities 2 and 3 of `check_approval_for_action`: a class approval, named or wildcard. -/
def checkClassApproval (prior : Prior) (s : State) (r : Record) (key : ClassApprovalKey)
    (next : Except ReasonCode RecordId) : Except ReasonCode RecordId :=
  match usableApproval prior s s.classApprovals[key]? with
  | none => next
  | some (approvalId, bytes) =>
    match P.decode ApprovalData bytes with
    | none => .error .invalidPayload
    | some approval => if expired r.time approval.expiry then .error .approvalExpired
      else .ok approvalId

/-- `check_approval_for_action`: exact match, then class match, then wildcard. -/
def checkApprovalForAction (prior : Prior) (s : State) (r : Record) (data : ActionData) :
    Except ReasonCode RecordId :=
  match P.actionHash r.author.id data with
  | none => .error .invalidPayload
  | some hash =>
    let byClass :=
      P.checkClassApproval prior s r (data.actionClass, data.scope, some r.author.id)
        (P.checkClassApproval prior s r (data.actionClass, data.scope, none)
          (.error .approvalMissing))
    match usableApproval prior s s.validApprovals[hash]? with
    | none => byClass
    | some (approvalId, bytes) =>
      match P.decode ApprovalData bytes with
      | none => .error .invalidPayload
      | some approval =>
        -- an expired or mismatched exact approval falls through to the class match
        if approval.actorId = some r.author.id ∧ approval.scope = data.scope ∧
            expired r.time approval.expiry = false then .ok approvalId
        else byClass

/-- The approval an Action needs under the mode of its capability. -/
def resolveAuthority (prior : Prior) (s : State) (r : Record) (data : ActionData)
    (mode : CapabilityMode) : Except ReasonCode (Option RecordId) :=
  match mode with
  | .deny => .error .capabilityDenied
  | .auto => .ok none
  | .ask => (P.checkApprovalForAction prior s r data).map some

/-- `check_action`. -/
def checkAction (prior : Prior) (s : State) (r : Record) : Option ReasonCode :=
  orReject (P.decode ActionData r.data) .invalidPayload fun data =>
  withActiveRequest prior s r data.requestId fun request =>
  orReject (P.decode RequestData request.data) .invalidPayload fun requestData =>
    rejectIf (data.scope ≠ requestData.scope) .invalidPayload <|>
    orReject s.activeCapabilities[((r.author.id, data.actionClass, data.scope) : CapabilityKey)]?
      .capabilityMissing fun capId =>
    orReject (prior.find capId) .capabilityMissing fun cap =>
      rejectIf (capId ∈ s.retractedRecords ∨ capId ∈ s.taintedRecords) .capabilityMissing <|>
      orReject (P.decode CapabilityData cap.data) .invalidPayload fun capData =>
        rejectIf (expired r.time capData.expiry = true) .capabilityMissing <|>
        match P.resolveAuthority prior s r data capData.mode with
        | .error reason => some reason
        | .ok approvalId =>
          rejectIf (r.hasRequireRef capId = false) .authorityRefMissing <|>
          match approvalId with
          | none => none
          | some id => rejectIf (r.hasRequireRef id = false) .authorityRefMissing

/-! ## Results, refusals, usage, summaries, responses -/

/-- `check_result`. -/
def checkResult (rules : VerifierRules) (prior : Prior) (s : State) (r : Record) :
    Option ReasonCode :=
  orReject (P.decode ResultData r.data) .invalidPayload fun data =>
    rejectIf (data.artifacts.any (fun a => !artifactRefsWellFormed a) = true) .artifactRefInvalid <|>
    rejectIf (data.actionId ∉ s.openActions) .actionClosed <|>
    orReject (prior.find data.actionId) .actionClosed fun action =>
      rejectIf (action.thread ≠ r.thread ∨ action.space ≠ r.space) .actionClosed <|>
      orReject (P.decode ActionData action.data) .invalidPayload fun actionData =>
        (match actionData.execMode with
          | .external =>
            rejectIf (r.schema ≠ P.schemaId schemaResultExternal) .externalReceiptRequired <|>
            rejectIf (r.author.signature = none) .signatureMissing <|>
            rejectIf (r.author.id ∉ rules.authorKeys) .signatureInvalid
          | .internal =>
            rejectIf (r.schema = P.schemaId schemaResultExternal) .invalidPayload) <|>
        rejectIf (r.onlyRef .cause data.actionId = false) .invalidPayload

/-- `check_refusal`. -/
def checkRefusal (prior : Prior) (s : State) (r : Record) : Option ReasonCode :=
  orReject (P.decode RefusalData r.data) .invalidPayload fun data =>
  orReject (prior.find data.targetId) .requestMissing fun t =>
    (match data.targetKind with
      | .action =>
        rejectIf (t.kind ≠ .action) .invalidPayload <|>
        rejectIf (data.targetId ∉ s.openActions) .actionClosed <|>
        rejectIf (t.thread ≠ r.thread ∨ t.space ≠ r.space) .actionClosed
      | .request =>
        rejectIf (t.kind ≠ .request) .invalidPayload <|>
        rejectIf (data.targetId ∉ s.activeRequests) .requestMissing <|>
        rejectIf (t.thread ≠ r.thread ∨ t.space ≠ r.space) .requestMissing
      | .verifiedEffect =>
        rejectIf (t.kind ≠ .result ∨ t.schema ≠ P.schemaId schemaResultEffectConfirmation)
          .invalidPayload <|>
        rejectIf (data.targetId ∉ s.acceptedRecords) .invalidPayload <|>
        rejectIf (t.thread ≠ r.thread ∨ t.space ≠ r.space) .invalidPayload) <|>
    rejectIf (r.onlyRef .cause data.targetId = false) .invalidPayload

/-- `check_usage`. -/
def checkUsage (prior : Prior) (s : State) (r : Record) : Option ReasonCode :=
  orReject (P.decode UsageData r.data) .invalidPayload fun data =>
    rejectIf (data.actor ≠ r.author.id) .invalidPayload <|>
    orReject (prior.find data.usedRecord) .invalidPayload fun _ =>
    orReject (prior.find data.consumingRecord) .invalidPayload fun consuming =>
      rejectIf (data.consumingRecord ∉ s.acceptedRecords) .invalidPayload <|>
      rejectIf (consuming.kind ≠ .result ∧ consuming.kind ≠ .refusal) .invalidPayload <|>
      rejectIf (consuming.thread ≠ r.thread) .invalidPayload <|>
      rejectIf (r.onlyRef .use data.usedRecord = false) .invalidPayload

/-- `check_summary`. -/
def checkSummary (rules : VerifierRules) (r : Record) : Option ReasonCode :=
  orReject (P.decode SummaryData r.data) .invalidPayload fun data =>
    rejectIf (data.summaryType ∉ rules.allowedSummaryTypes) .invalidPayload <|>
    rejectIf (refTargets .use r.refs = []) .invalidPayload

/-- `check_response`. -/
def checkResponse (prior : Prior) (s : State) (r : Record) : Option ReasonCode :=
  orReject (P.decode ResponseData r.data) .invalidPayload fun data =>
  withActiveRequest prior s r data.requestId fun _ =>
    let expectedTurn := s.responseTurns[data.requestId]?.getD 0
    rejectIf (expectedTurn.toNat = 4294967295 ∨ data.turnIndex ≠ expectedTurn) .invalidPayload <|>
    if data.closesRequest then
      rejectIf (0 < s.requestOpenActionCount[data.requestId]?.getD 0) .invalidPayload <|>
      rejectIf (data.requestId ∈ s.activePlans) .invalidPayload
    else none

end Platform

end Bellbook
