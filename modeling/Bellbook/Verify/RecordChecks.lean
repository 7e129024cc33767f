import Bellbook.Verify.Evolution

/-!
# Checks of one record (`verify/verifier/record_checks.rs`)

`checkRecord` runs the generic checks in the order of the source and then the rules of the record's
kind; `verifyRecord` turns its outcome into a verdict.
-/

namespace Bellbook

open Std

/-- The verdict on the outcome of a check. -/
def verdictOf : Option ReasonCode → VerdictData
  | some reason => ⟨.reject, some reason⟩
  | none => ⟨.accept, none⟩

namespace Platform

variable (P : Platform)

/-! ## Kind-specific dispatch -/

/-- `check_kind_specific`. -/
def checkKindSpecific (rules : VerifierRules) (prior : Prior) (s : State) (r : Record) :
    Option ReasonCode :=
  match r.kind with
  | .request => P.checkRequest prior s r
  | .action => P.checkAction prior s r
  | .result => P.checkResult rules prior s r
  | .refusal => P.checkRefusal prior s r
  | .usage => P.checkUsage prior s r
  | .summary => P.checkSummary rules r
  | .response => P.checkResponse prior s r
  | .approval => P.checkApproval r
  | .plan => P.checkPlan prior s r
  | .retraction => P.checkRetraction rules prior s r
  | .capability => none
  | .verdict => none
  | .candidate => P.checkCandidate rules prior s r
  | .evaluation => P.checkEvaluation rules prior s r
  | .selection => P.checkSelection rules prior s r
  | .requirement => P.checkRequirement prior s r

/-! ## Replacement -/

/-- Decode the payloads of a record and its replacement target, and compare them. -/
def compatible (α : Type) [Deserialize α] (r target : Record) (ok : α → α → Bool) :
    Option ReasonCode :=
  orReject (P.decode α r.data) .invalidPayload fun new =>
  orReject (P.decode α target.data) .invalidPayload fun old =>
    rejectIf (ok new old = false) .replacementInvalid

/-- Exact approvals keep scope and target, class approvals their whole key; the form is kept. -/
def approvalsCompatible (new old : ApprovalData) : Bool :=
  if new.targetAction.isSome && old.targetAction.isSome then
    new.scope = old.scope && new.targetAction = old.targetAction
  else if new.actionClass.isSome && old.actionClass.isSome then
    new.actionClass = old.actionClass && new.scope = old.scope && new.actorId = old.actorId
  else false

/-- `check_replacement_compatibility`. -/
def checkReplacementCompatibility (r target : Record) : Option ReasonCode :=
  match r.kind with
  | .capability => P.compatible CapabilityData r target fun new old =>
      new.actorId = old.actorId && new.actionClass = old.actionClass && new.scope = old.scope
  | .approval => P.compatible ApprovalData r target approvalsCompatible
  | .summary => P.compatible SummaryData r target fun new old =>
      new.summaryType = old.summaryType && new.subject = old.subject && new.scope = old.scope
  | .plan => P.compatible PlanData r target fun new old => new.requestId = old.requestId
  | _ => none

/-- The kinds a Replace ref is allowed on. -/
def replaceable : Kind → Bool
  | .summary | .capability | .approval | .plan | .selection => true
  | _ => false

/-- The replacement checks of `check_record`. -/
def checkReplacement (prior : Prior) (s : State) (r : Record) : Option ReasonCode :=
  match refTargets .replace r.refs with
  | [] => none
  | [target] =>
    rejectIf (replaceable r.kind = false) .replacementInvalid <|>
    orReject (prior.find target) .replacementInvalid fun t =>
      rejectIf (t.id ∉ s.acceptedRecords) .replacementInvalid <|>
      rejectIf (t.kind ≠ r.kind) .replacementInvalid <|>
      P.checkReplacementCompatibility r t
  | _ => some .invalidPayload

/-! ## Payloads -/

/-- The payload type of each schema, as a test that the bytes are canonical for it; the arms of
`check_payload_decode` in their order. -/
def payloadTests : List (String × (Bytes → Bool)) :=
  [(schemaRequest, P.decodesCanonically RequestData),
    (schemaAction, P.decodesCanonically ActionData),
    (schemaResponse, P.decodesCanonically ResponseData),
    (schemaResult, P.decodesCanonically ResultData),
    (schemaResultExternal, P.decodesCanonically ResultData),
    (schemaResultEffectConfirmation, P.decodesCanonically ResultData),
    (schemaCapability, P.decodesCanonically CapabilityData),
    (schemaApproval, P.decodesCanonically ApprovalData),
    (schemaSummary, P.decodesCanonically SummaryData),
    (schemaRefusal, P.decodesCanonically RefusalData),
    (schemaUsage, P.decodesCanonically UsageData),
    (schemaVerdict, P.decodesCanonically VerdictData),
    (schemaPlan, P.decodesCanonically PlanData),
    (schemaRetraction, P.decodesCanonically RetractionData),
    (schemaCandidate, P.decodesCanonically CandidateData),
    (schemaEvaluation, P.decodesCanonically EvaluationData),
    (schemaSelection, P.decodesCanonically SelectionData),
    (schemaRequirement, P.decodesCanonically RequirementData),
    (schemaEvaluationV2, P.decodesCanonically EvaluationDataV2),
    (schemaEvaluationAttested, P.decodesCanonically EvaluationDataV2)]

/-- `check_payload_decode`. -/
def checkPayloadDecode (r : Record) : Option ReasonCode :=
  orReject (P.payloadTests.find? fun t => r.schema = P.schemaId t.1) .unknownSchema fun t =>
    rejectIf (t.2 r.data = false) .invalidPayload

/-! ## The generic checks -/

/-- Role of the author: allowed for the kind, and the one the rules register for the actor. -/
def checkAuthorRole (rules : VerifierRules) (r : Record) : Option ReasonCode :=
  rejectIf (r.author.type ∉ allowedAuthorTypes r.kind) .authorRoleInvalid <|>
  match rules.authorRoles[r.author.id]? with
  | some role => rejectIf (r.author.type ≠ role) .authorRoleInvalid
  | none => rejectIf (requiresRegisteredAuthor r.kind = true) .authorRoleInvalid

/-- Signature: present when required, and any present one verifies with a pinned key. -/
def checkSignature (rules : VerifierRules) (r : Record) : Option ReasonCode :=
  rejectIf ((r.kind ∈ rules.signatureRequiredKinds ∨ r.author.id ∈ rules.authorKeys) ∧
    r.author.signature = none) .signatureMissing <|>
  if r.author.signature = none then none
  else orReject (P.verifiedKey r) .signatureInvalid fun key =>
    rejectIf (rules.authorKeys[r.author.id]?.any (fun allowed => key ∉ allowed) = true)
      .signatureInvalid

/-- One ref: it resolves in the record's space, and a `Require` target is usable. -/
def checkRef (prior : Prior) (s : State) (r : Record) (ref : Ref) : Option ReasonCode :=
  orReject (prior.find ref.target) .refUnresolved fun t =>
    rejectIf (t.space ≠ r.space) .refCrossSpace <|>
    rejectIf (ref.type = .require ∧ s.usable t.id = false) .refUnresolved

/-- The evidence the refs of a record contribute. -/
def refEvidences (find : RecordId → Option Record) (s : State) (refs : List Ref) : List Evidence :=
  refs.filterMap fun ref => (find ref.target).bind (s.refEvidence ref)

/-- The evidence rule: the derived evidence is stored, and meets the threshold of the kind. -/
def checkEvidence (rules : VerifierRules) (prior : Prior) (s : State) (r : Record) :
    Option ReasonCode :=
  let expected := P.deriveEvidence r.schema (refEvidences prior.find s r.refs)
  rejectIf (r.evidence ≠ expected) .invalidPayload <|>
  rejectIf (rules.evidenceThresholds[r.kind]?.any (fun threshold => threshold < expected) = true)
    .evidenceBelowThreshold

/-- `check_record` of a record that is not a verdict. -/
def checkSubject (rules : VerifierRules) (prior : Prior) (s : State) (r : Record) :
    Option ReasonCode :=
  rejectIf (P.computeId r ≠ some r.id) .invalidPayload <|>
  rejectIf (adjacentAll (fun a b => decide (Ref.lt a b)) r.refs = false) .invalidPayload <|>
  rejectIf (r.space ≠ rules.space) .invalidPayload <|>
  orReject rules.kindSchemaMap[r.schema]? .unknownSchema fun expectedKind =>
  rejectIf (r.kind ≠ expectedKind) .kindSchemaMismatch <|>
  checkAuthorRole rules r <|>
  P.checkSignature rules r <|>
  r.refs.findSome? (checkRef prior s r) <|>
  P.checkReplacement prior s r <|>
  P.checkEvidence rules prior s r <|>
  P.checkPayloadDecode r <|>
  P.checkKindSpecific rules prior s r

/-- `check_record`. -/
def checkRecord (rules : VerifierRules) (prior : Prior) (s : State) (r : Record) :
    Option ReasonCode :=
  if r.kind = .verdict then P.checkVerdictRecord rules prior r else P.checkSubject rules prior s r

/-- `verify_record`. -/
def verifyRecord (rules : VerifierRules) (prior : List Record) (s : State) (r : Record) :
    VerdictData :=
  verdictOf (P.checkRecord rules ((PriorIndex.of prior).view prior) s r)

end Platform

end Bellbook
