import Bellbook.Verify.Plans

/-!
# Evolution kinds (`verify/verifier/evolution.rs`)

The kind-specific rules of Candidate, Evaluation, Selection and Requirement records. Lineage edges
that are payload ids rather than refs are resolved here.
-/

namespace Bellbook

open Std

def oidHexLen : SourceAlgo → Nat
  | .sha1 => 40
  | .sha256 => 64

/-- `is_lower_hex`. -/
def isLowerHex (s : String) (len : Nat) : Bool :=
  byteLen s = len && s.toList.all isLowerHexChar

/-- `source_binding_well_formed`. -/
def sourceBindingWellFormed (sb : SourceBinding) : Bool :=
  isLowerHex sb.git.tree (oidHexLen sb.git.algo) &&
  sb.git.commit.all (fun commit => isLowerHex commit (oidHexLen sb.git.algo)) &&
  sb.manifestHash.isSome = (sb.binding = .manifest)

/-- `resolve_candidate`: a prior accepted Candidate of the record's space. -/
def resolveCandidate (prior : Prior) (s : State) (r : Record) (id : RecordId) : Option Record :=
  (prior.find id).filter fun t =>
    t.space = r.space && t.kind = .candidate && t.id ∈ s.acceptedRecords

/-- The winners of an outcome. -/
def SelectionOutcome.winners : SelectionOutcome → List RecordId
  | .selected candidates => candidates
  | .none => []

/-- `collect::<BTreeSet<_>>`. -/
def idSetOf (ids : List RecordId) : IdSet := ids.foldl ExtTreeSet.insert ∅

/-- `uses`. -/
def Record.uses (r : Record) (target : RecordId) : Bool :=
  r.refs.any fun ref => ref.type = .use && ref.target = target

namespace Platform

variable (P : Platform)

/-! ## Candidates -/

/-- The obligations of a candidate's basis over its Cause targets and its parent. -/
def checkBasis (rules : VerifierRules) (s : State) (data : CandidateData) (causes : List Record) :
    Option ReasonCode :=
  match data.basis with
  | .root =>
    rejectIf (data.parent.isSome = true ∨ 1 < causes.length) .lineageInvalid <|>
    match causes with
    | [] => none
    | c :: _ => rejectIf (c.kind ≠ .request ∨ c.id ∉ s.acceptedRecords) .lineageInvalid
  | .continuation =>
    match causes with
    | [anchor] =>
      rejectIf (anchor.kind ≠ .selection ∨ anchor.id ∉ s.acceptedRecords) .lineageInvalid <|>
      rejectIf (rules.rejectCompromisedContinuation = true ∧
        (anchor.id ∈ s.retractedRecords ∨ anchor.id ∈ s.taintedRecords)) .lineageInvalid <|>
      orReject data.parent .lineageInvalid fun parent =>
      orReject (P.decode SelectionData anchor.data) .invalidPayload fun anchorData =>
        match anchorData.outcome with
        | .selected candidates => rejectIf (parent ∉ candidates) .lineageInvalid
        | .none => some .lineageInvalid
    | _ => some .lineageInvalid
  | .derivation =>
    rejectIf (data.parent.isSome = true ∨ causes = []) .lineageInvalid <|>
    causes.findSome? fun c =>
      rejectIf (c.id ∉ s.acceptedRecords) .lineageInvalid <|>
      rejectIf (c.kind ≠ .candidate ∧ c.kind ≠ .evaluation) .lineageInvalid

/-- `check_candidate`. -/
def checkCandidate (rules : VerifierRules) (prior : Prior) (s : State) (r : Record) :
    Option ReasonCode :=
  orReject (P.decode CandidateData r.data) .invalidPayload fun data =>
    rejectIf (sourceBindingWellFormed data.source = false) .sourceBindingInvalid <|>
    rejectIf (data.artifacts.any (fun a => !artifactRefsWellFormed a) = true) .artifactRefInvalid <|>
    rejectIf (data.parent.any (fun p => (resolveCandidate prior s r p).isNone) = true)
      .payloadRefUnresolved <|>
    orReject ((refTargets .cause r.refs).mapM prior.find) .refUnresolved fun causes =>
      P.checkBasis rules s data causes

/-! ## Evaluations -/

/-- One requirement an extended evaluation speaks to: accepted, in this space, and Used. -/
def checkEvaluatedRequirement (prior : Prior) (s : State) (r : Record) (rid : RecordId) :
    Option ReasonCode :=
  orReject ((prior.find rid).filter fun t =>
    t.kind = .requirement && t.space = r.space && t.id ∈ s.acceptedRecords) .evaluationInvalid
    fun _ => rejectIf (r.uses rid = false) .evaluationInvalid

/-- `check_evaluation_v2`. -/
def checkEvaluationV2 (rules : VerifierRules) (prior : Prior) (s : State) (r : Record) :
    Option ReasonCode :=
  orReject (P.decode EvaluationDataV2 r.data) .invalidPayload fun data =>
    (if r.schema = P.schemaId schemaEvaluationAttested then
      rejectIf (r.author.signature = none) .signatureMissing <|>
      rejectIf (r.author.id ∉ rules.authorKeys) .signatureInvalid
    else none) <|>
    orReject (resolveCandidate prior s r data.candidate) .payloadRefUnresolved fun _ =>
      rejectIf (r.uses data.candidate = false) .evaluationInvalid <|>
      rejectIf (data.evaluator.id = "") .evaluationInvalid <|>
      rejectIf (artifactRefsWellFormed data.evidence = false) .artifactRefInvalid <|>
      rejectIf (adjacentAll (fun a b => decide (a < b)) data.requirements = false)
        .evaluationInvalid <|>
      data.requirements.findSome? (checkEvaluatedRequirement prior s r)

/-- `check_evaluation`. -/
def checkEvaluation (rules : VerifierRules) (prior : Prior) (s : State) (r : Record) :
    Option ReasonCode :=
  if r.schema = P.schemaId schemaEvaluationV2 ∨ r.schema = P.schemaId schemaEvaluationAttested then
    P.checkEvaluationV2 rules prior s r
  else
    orReject (P.decode EvaluationData r.data) .invalidPayload fun data =>
    orReject (resolveCandidate prior s r data.candidate) .payloadRefUnresolved fun _ =>
      rejectIf (r.uses data.candidate = false) .evaluationInvalid

/-! ## Selections -/

/-- `resolve_selection_approval`. -/
def resolveSelectionApproval (rules : VerifierRules) (prior : Prior) (s : State) (r : Record)
    (data : SelectionData) : Except ReasonCode (Option RecordId) :=
  if rules.selectionRequiresApproval = false then .ok none
  else
    match P.selectionApprovalSubjectHash r.author.id (findReplaceRef r.refs) data with
    | none => .error .invalidPayload
    | some hash =>
      match s.validApprovals[hash]? with
      | none => .error .approvalMissing
      | some approvalId =>
        if r.hasRequireRef approvalId = false then .error .approvalMissing
        else if s.usable approvalId = false then .error .approvalMissing
        else match prior.find approvalId with
          | none => .error .approvalMissing
          | some approvalRecord =>
            match P.decode ApprovalData approvalRecord.data with
            | none => .error .invalidPayload
            | some approval =>
              if approval.actorId ≠ some r.author.id then .error .approvalMissing
              else if expired r.time approval.expiry then .error .approvalExpired
              else .ok (some approvalId)

/-- The accepted Evaluations a record Uses. -/
def usedEvaluations (prior : Prior) (s : State) (r : Record) : List Record :=
  ((refTargets .use r.refs).filterMap prior.find).filter fun t =>
    t.kind = .evaluation && t.id ∈ s.acceptedRecords

/-- A winner meets the configured minimum source binding. -/
def checkWinnerBinding (prior : Prior) (winner : RecordId) : Option ReasonCode :=
  orReject (prior.find winner) .selectionInvalid fun t =>
  orReject (P.decode CandidateData t.data) .invalidPayload fun cd =>
    rejectIf (cd.source.binding ≠ .manifest) .selectionInvalid

/-- The rules of the outcome: winners are considered, bound and evaluated. -/
def checkOutcome (rules : VerifierRules) (prior : Prior) (data : SelectionData)
    (usedEvaluations : Nat) : Option ReasonCode :=
  match data.outcome with
  | .selected candidates =>
    rejectIf (candidates = [] ∨ ¬candidates.Nodup ∨ candidates.all (· ∈ data.considered) = false)
      .selectionInvalid <|>
    (if rules.minBinding = .manifest then
      (idSetOf candidates).toList.findSome? (P.checkWinnerBinding prior)
    else none) <|>
    rejectIf (rules.selectionRequiresEvaluation = true ∧ usedEvaluations = 0) .selectionInvalid
  | .none => none

/-- A reaffirmation keeps the objective, and comes from an allowlisted author if there is a list. -/
def checkReaffirmation (rules : VerifierRules) (prior : Prior) (r : Record) (data : SelectionData) :
    Option ReasonCode :=
  match findReplaceRef r.refs with
  | none => none
  | some target =>
    (match prior.find target with
      | none => none
      | some t => orReject (P.decode SelectionData t.data) .invalidPayload fun targetData =>
          rejectIf (targetData.objective ≠ data.objective) .reaffirmationInvalid) <|>
    rejectIf (rules.reaffirmationActors.isEmpty = false ∧ r.author.id ∉ rules.reaffirmationActors)
      .reaffirmationInvalid

/-- `check_selection`. -/
def checkSelection (rules : VerifierRules) (prior : Prior) (s : State) (r : Record) :
    Option ReasonCode :=
  orReject (P.decode SelectionData r.data) .invalidPayload fun data =>
    let used := usedEvaluations prior s r
    rejectIf (data.considered = [] ∨ rules.maxConsidered.toNat < data.considered.length)
      .selectionInvalid <|>
    rejectIf (¬data.considered.Nodup) .selectionInvalid <|>
    (data.considered.findSome? fun cid =>
      orReject (resolveCandidate prior s r cid) .payloadRefUnresolved fun _ => none) <|>
    (used.findSome? fun t =>
      orReject (P.evaluationSummary t.schema t.data) .invalidPayload fun summary =>
        rejectIf (summary.1 ∉ data.considered) .selectionInvalid) <|>
    P.checkOutcome rules prior data used.length <|>
    match P.resolveSelectionApproval rules prior s r data with
    | .error reason => some reason
    | .ok approval =>
      rejectIf (idSetOf (refTargets .require r.refs) ≠
        idSetOf (data.outcome.winners ++ approval.toList)) .selectionInvalid <|>
      P.checkReaffirmation rules prior r data

/-! ## Requirements -/

/-- Provenance is bound to the author's role. -/
def provenanceOk (data : RequirementData) (type : AuthorType) : Bool :=
  match data.provenance with
  | .userAuthored => type = .user
  | .derived => type = .provider || type = .system

/-- `check_requirement`. -/
def checkRequirement (prior : Prior) (s : State) (r : Record) : Option ReasonCode :=
  orReject (P.decode RequirementData r.data) .invalidPayload fun data =>
    rejectIf (data.key = "" ∨ data.description = "") .requirementInvalid <|>
    rejectIf (provenanceOk data r.author.type = false) .authorRoleInvalid <|>
    match refTargets .cause r.refs with
    | [requestId] =>
      orReject (prior.find requestId) .requirementInvalid fun request =>
        rejectIf (request.kind ≠ .request ∨ requestId ∉ s.acceptedRecords ∨
          request.thread ≠ r.thread ∨ request.space ≠ r.space) .requirementInvalid <|>
        rejectIf (s.requirementKeys[requestId]?.any (fun keys => data.key ∈ keys) = true)
          .requirementInvalid
    | _ => some .requirementInvalid

end Platform

end Bellbook
