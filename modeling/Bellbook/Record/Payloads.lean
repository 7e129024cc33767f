import Bellbook.Record.Kind

/-!
# Payloads (`record/payloads.rs`)

One structure for each schema's payload, with the encoder and the decoder `serde` derives for it.
The bounds the source enforces at decode time (`try_from`) are part of the decoders here; a
`ScoredValue` carries its bounds.
-/

namespace Bellbook

abbrev RecordId := Hash256
abbrev SpaceId := Hash256
abbrev ThreadId := Hash256
abbrev ScopeId := Hash256
abbrev ActorId := String
abbrev Time := UInt64

/-! ## Requests, actions, responses, results -/

structure Attachment where
  path : String
  content : String
  deriving DecidableEq

instance : Serialize Attachment where
  toValue a := .object [("path", toValue a.path), ("content", toValue a.content)]

instance : Deserialize Attachment where
  fromValue v := do
    let f ← structFields true ["path", "content"] v
    return { path := ← f.required "path", content := ← f.required "content" }

structure RequestData where
  objective : String
  scope : Hash256
  attachments : List Attachment
  parentRequestId : Option RecordId
  deriving DecidableEq

instance : Serialize RequestData where
  toValue d := .object
    [("objective", toValue d.objective), ("scope", toValue d.scope),
      ("attachments", toValue d.attachments), ("parent_request_id", toValue d.parentRequestId)]

instance : Deserialize RequestData where
  fromValue v := do
    let f ← structFields true ["objective", "scope", "attachments", "parent_request_id"] v
    return {
      objective := ← f.required "objective"
      scope := ← f.required "scope"
      attachments := ← f.defaulted "attachments" []
      parentRequestId := ← f.defaulted "parent_request_id" none }

structure ActionData where
  requestId : RecordId
  actionClass : String
  scope : Hash256
  execMode : ExecMode
  params : Value

instance : Serialize ActionData where
  toValue d := .object
    [("request_id", toValue d.requestId), ("action_class", toValue d.actionClass),
      ("scope", toValue d.scope), ("exec_mode", toValue d.execMode), ("params", toValue d.params)]

instance : Deserialize ActionData where
  fromValue v := do
    let f ← structFields true ["request_id", "action_class", "scope", "exec_mode", "params"] v
    return {
      requestId := ← f.required "request_id"
      actionClass := ← f.required "action_class"
      scope := ← f.required "scope"
      execMode := ← f.required "exec_mode"
      params := ← f.required "params" }

structure ResponseData where
  requestId : RecordId
  content : String
  turnIndex : UInt32
  closesRequest : Bool
  deriving DecidableEq

instance : Serialize ResponseData where
  toValue d := .object
    [("request_id", toValue d.requestId), ("content", toValue d.content),
      ("turn_index", toValue d.turnIndex), ("closes_request", toValue d.closesRequest)]

instance : Deserialize ResponseData where
  fromValue v := do
    let f ← structFields true ["request_id", "content", "turn_index", "closes_request"] v
    return {
      requestId := ← f.required "request_id"
      content := ← f.required "content"
      turnIndex := ← f.required "turn_index"
      closesRequest := ← f.required "closes_request" }

/-! ## Artifact identities -/

structure ArtifactRef where
  scheme : String
  digest : String
  name : Option String
  deriving DecidableEq

instance : Serialize ArtifactRef where
  toValue a := .object
    [("scheme", toValue a.scheme), ("digest", toValue a.digest), ("name", toValue a.name)]

instance : Deserialize ArtifactRef where
  fromValue v := do
    let f ← structFields true ["scheme", "digest", "name"] v
    return {
      scheme := ← f.required "scheme"
      digest := ← f.required "digest"
      name := ← f.defaulted "name" none }

/-- `ARTIFACT_SCHEMES`: registered schemes and their digest lengths in bytes. -/
def artifactSchemes : List (String × Nat) :=
  [("git-tree-sha1", 20), ("git-tree-sha256", 32), ("manifest-v1", 32), ("git-archive-tar-v1", 32),
    ("oci-image-manifest", 32), ("sha256-bytes", 32)]

def artifactDigestMinBytes : Nat := 20
def artifactDigestMaxBytes : Nat := 64

def isLowerAlnum (c : Char) : Bool := ('a' ≤ c ∧ c ≤ 'z') ∨ ('0' ≤ c ∧ c ≤ '9')
def isLowerHexChar (c : Char) : Bool := ('0' ≤ c ∧ c ≤ '9') ∨ ('a' ≤ c ∧ c ≤ 'f')

/-- `str::len`: bytes, not characters. -/
def byteLen (s : String) : Nat := (utf8 s.toList).length

/-- `artifact_ref_well_formed`. The byte tests of the source are character tests here: every byte
of a non-ASCII character is outside all the ranges. -/
def artifactRefWellFormed (a : ArtifactRef) : Bool :=
  (match a.scheme.toList with
    | [] => false
    | c :: rest => isLowerAlnum c && rest.all fun c => isLowerAlnum c || c = '.' || c = '-') &&
  byteLen a.digest % 2 = 0 && a.digest.toList.all isLowerHexChar &&
  match (artifactSchemes.find? fun s => s.1 = a.scheme).map Prod.snd with
  | some n => byteLen a.digest / 2 = n
  | none => artifactDigestMinBytes ≤ byteLen a.digest / 2 ∧
      byteLen a.digest / 2 ≤ artifactDigestMaxBytes

/-- The derived order `(scheme, digest, name)`. -/
def ArtifactRef.lt (a b : ArtifactRef) : Bool :=
  a.scheme < b.scheme || (a.scheme = b.scheme &&
    (a.digest < b.digest || (a.digest = b.digest &&
      match a.name, b.name with
      | none, some _ => true
      | some x, some y => x < y
      | _, none => false)))

/-- `windows(2).all`: a test of every two neighbours. -/
def adjacentAll {α : Type} (p : α → α → Bool) : List α → Bool
  | a :: b :: rest => p a b && adjacentAll p (b :: rest)
  | _ => true

/-- `artifact_refs_well_formed`. -/
def artifactRefsWellFormed (list : List ArtifactRef) : Bool :=
  list.all artifactRefWellFormed && adjacentAll ArtifactRef.lt list

structure ResultData where
  actionId : RecordId
  status : ResultStatus
  output : String
  artifacts : Option (List ArtifactRef)
  deriving DecidableEq

instance : Serialize ResultData where
  toValue d := .object
    ([("action_id", toValue d.actionId), ("status", toValue d.status), ("output", toValue d.output)]
      ++ skipNone "artifacts" d.artifacts)

instance : Deserialize ResultData where
  fromValue v := do
    let f ← structFields true ["action_id", "status", "output", "artifacts"] v
    return {
      actionId := ← f.required "action_id"
      status := ← f.required "status"
      output := ← f.required "output"
      artifacts := ← f.defaulted "artifacts" none }

/-! ## Requirements -/

inductive Provenance where
  | userAuthored | derived
  deriving DecidableEq, Repr

instance : UnitEnum Provenance where
  name
    | .userAuthored => "user_authored" | .derived => "derived"
  variants := [.userAuthored, .derived]
  find_name a := by cases a <;> decide

structure RequirementData where
  key : String
  description : String
  required : Bool
  expectedEvidence : Option String
  provenance : Provenance
  deriving DecidableEq

instance : Serialize RequirementData where
  toValue d := .object
    [("key", toValue d.key), ("description", toValue d.description),
      ("required", toValue d.required), ("expected_evidence", toValue d.expectedEvidence),
      ("provenance", toValue d.provenance)]

instance : Deserialize RequirementData where
  fromValue v := do
    let f ← structFields true
      ["key", "description", "required", "expected_evidence", "provenance"] v
    return {
      key := ← f.required "key"
      description := ← f.required "description"
      required := ← f.required "required"
      expectedEvidence := ← f.defaulted "expected_evidence" none
      provenance := ← f.required "provenance" }

/-! ## Authority: capabilities and approvals -/

structure CapabilityData where
  actorId : ActorId
  actionClass : String
  scope : Hash256
  mode : CapabilityMode
  expiry : Option Time
  deriving DecidableEq

instance : Serialize CapabilityData where
  toValue d := .object
    [("actor_id", toValue d.actorId), ("action_class", toValue d.actionClass),
      ("scope", toValue d.scope), ("mode", toValue d.mode), ("expiry", toValue d.expiry)]

instance : Deserialize CapabilityData where
  fromValue v := do
    let f ← structFields true ["actor_id", "action_class", "scope", "mode", "expiry"] v
    return {
      actorId := ← f.required "actor_id"
      actionClass := ← f.required "action_class"
      scope := ← f.required "scope"
      mode := ← f.required "mode"
      expiry := ← f.optional "expiry" }

structure ApprovalData where
  targetAction : Option Hash256
  actionClass : Option String
  scope : Hash256
  actorId : Option ActorId
  expiry : Option Time
  deriving DecidableEq

instance : Serialize ApprovalData where
  toValue d := .object
    [("target_action", toValue d.targetAction), ("action_class", toValue d.actionClass),
      ("scope", toValue d.scope), ("actor_id", toValue d.actorId), ("expiry", toValue d.expiry)]

instance : Deserialize ApprovalData where
  fromValue v := do
    let f ← structFields true ["target_action", "action_class", "scope", "actor_id", "expiry"] v
    return {
      targetAction := ← f.optional "target_action"
      actionClass := ← f.optional "action_class"
      scope := ← f.required "scope"
      actorId := ← f.optional "actor_id"
      expiry := ← f.optional "expiry" }

/-! ## Summaries, refusals, retractions, usage, verdicts -/

structure SummaryData where
  summaryType : SummaryType
  subject : Hash256
  scope : Hash256
  claimPayload : Bytes
  deriving DecidableEq

instance : Serialize SummaryData where
  toValue d := .object
    [("summary_type", toValue d.summaryType), ("subject", toValue d.subject),
      ("scope", toValue d.scope), ("claim_payload", toValue d.claimPayload)]

instance : Deserialize SummaryData where
  fromValue v := do
    let f ← structFields true ["summary_type", "subject", "scope", "claim_payload"] v
    return {
      summaryType := ← f.required "summary_type"
      subject := ← f.required "subject"
      scope := ← f.required "scope"
      claimPayload := ← f.required "claim_payload" }

structure RefusalData where
  targetId : RecordId
  targetKind : RefusalTarget
  reasonCode : Option ReasonCode
  deriving DecidableEq

instance : Serialize RefusalData where
  toValue d := .object
    [("target_id", toValue d.targetId), ("target_kind", toValue d.targetKind),
      ("reason_code", toValue d.reasonCode)]

instance : Deserialize RefusalData where
  fromValue v := do
    let f ← structFields true ["target_id", "target_kind", "reason_code"] v
    return {
      targetId := ← f.required "target_id"
      targetKind := ← f.required "target_kind"
      reasonCode := ← f.optional "reason_code" }

structure RetractionData where
  targetId : RecordId
  reason : String
  deriving DecidableEq

instance : Serialize RetractionData where
  toValue d := .object [("target_id", toValue d.targetId), ("reason", toValue d.reason)]

instance : Deserialize RetractionData where
  fromValue v := do
    let f ← structFields true ["target_id", "reason"] v
    return { targetId := ← f.required "target_id", reason := ← f.required "reason" }

structure UsageData where
  actor : ActorId
  usedRecord : RecordId
  consumingRecord : RecordId
  role : String
  outcome : UsageOutcome
  deriving DecidableEq

instance : Serialize UsageData where
  toValue d := .object
    [("actor", toValue d.actor), ("used_record", toValue d.usedRecord),
      ("consuming_record", toValue d.consumingRecord), ("role", toValue d.role),
      ("outcome", toValue d.outcome)]

instance : Deserialize UsageData where
  fromValue v := do
    let f ← structFields true ["actor", "used_record", "consuming_record", "role", "outcome"] v
    return {
      actor := ← f.required "actor"
      usedRecord := ← f.required "used_record"
      consumingRecord := ← f.required "consuming_record"
      role := ← f.required "role"
      outcome := ← f.required "outcome" }

structure VerdictData where
  result : VerdictResult
  reason : Option ReasonCode
  deriving DecidableEq

instance : Serialize VerdictData where
  toValue d := .object [("result", toValue d.result), ("reason", toValue d.reason)]

instance : Deserialize VerdictData where
  fromValue v := do
    let f ← structFields true ["result", "reason"] v
    return { result := ← f.required "result", reason := ← f.optional "reason" }

structure UsageOutcomeCounts where
  done : Nat := 0
  notDone : Nat := 0
  noChange : Nat := 0
  deriving DecidableEq

instance : Serialize UsageOutcomeCounts where
  toValue c := .object
    [("done", toValue c.done), ("not_done", toValue c.notDone), ("no_change", toValue c.noChange)]

/-! ## Plans -/

inductive PlanStatus where
  | running | completed | abandoned
  deriving DecidableEq, Repr

instance : UnitEnum PlanStatus where
  name
    | .running => "running" | .completed => "completed" | .abandoned => "abandoned"
  variants := [.running, .completed, .abandoned]
  find_name a := by cases a <;> decide

inductive TaskStatus where
  | pending | running | done | failed | skipped
  deriving DecidableEq, Repr

instance : UnitEnum TaskStatus where
  name
    | .pending => "pending" | .running => "running" | .done => "done" | .failed => "failed"
    | .skipped => "skipped"
  variants := [.pending, .running, .done, .failed, .skipped]
  find_name a := by cases a <;> decide

inductive FailurePolicy where
  | continue | askUser | abort
  deriving DecidableEq, Repr

instance : UnitEnum FailurePolicy where
  name
    | .continue => "continue" | .askUser => "ask_user" | .abort => "abort"
  variants := [.continue, .askUser, .abort]
  find_name a := by cases a <;> decide

inductive PlanTaskKind where
  | generic | inspect | search | extract | verify | write | summarize
  deriving DecidableEq, Repr

instance : UnitEnum PlanTaskKind where
  name
    | .generic => "generic" | .inspect => "inspect" | .search => "search" | .extract => "extract"
    | .verify => "verify" | .write => "write" | .summarize => "summarize"
  variants := [.generic, .inspect, .search, .extract, .verify, .write, .summarize]
  find_name a := by cases a <;> decide

inductive TaskDoneWhen where
  | toolSuccess | nonEmptyResult | contentRetrieved | finalResponse
  deriving DecidableEq, Repr

instance : UnitEnum TaskDoneWhen where
  name
    | .toolSuccess => "tool_success" | .nonEmptyResult => "non_empty_result"
    | .contentRetrieved => "content_retrieved" | .finalResponse => "final_response"
  variants := [.toolSuccess, .nonEmptyResult, .contentRetrieved, .finalResponse]
  find_name a := by cases a <;> decide

structure PlanTask where
  id : String
  description : String
  kind : PlanTaskKind
  toolHint : Option String
  inputsFrom : List String
  produces : Option String
  doneWhen : TaskDoneWhen
  status : TaskStatus
  resultRecordId : Option RecordId
  dependsOn : List String
  onFailure : FailurePolicy
  deriving DecidableEq

instance : Serialize PlanTask where
  toValue t := .object
    [("id", toValue t.id), ("description", toValue t.description), ("kind", toValue t.kind),
      ("tool_hint", toValue t.toolHint), ("inputs_from", toValue t.inputsFrom),
      ("produces", toValue t.produces), ("done_when", toValue t.doneWhen),
      ("status", toValue t.status), ("result_record_id", toValue t.resultRecordId),
      ("depends_on", toValue t.dependsOn), ("on_failure", toValue t.onFailure)]

instance : Deserialize PlanTask where
  fromValue v := do
    let f ← structFields true
      ["id", "description", "kind", "tool_hint", "inputs_from", "produces", "done_when", "status",
        "result_record_id", "depends_on", "on_failure"] v
    return {
      id := ← f.required "id"
      description := ← f.required "description"
      kind := ← f.defaulted "kind" .generic
      toolHint := ← f.optional "tool_hint"
      inputsFrom := ← f.defaulted "inputs_from" []
      produces := ← f.defaulted "produces" none
      doneWhen := ← f.defaulted "done_when" .toolSuccess
      status := ← f.required "status"
      resultRecordId := ← f.optional "result_record_id"
      dependsOn := ← f.defaulted "depends_on" []
      onFailure := ← f.required "on_failure" }

structure PlanData where
  requestId : RecordId
  tasks : List PlanTask
  status : PlanStatus
  deriving DecidableEq

instance : Serialize PlanData where
  toValue d := .object
    [("request_id", toValue d.requestId), ("tasks", toValue d.tasks), ("status", toValue d.status)]

instance : Deserialize PlanData where
  fromValue v := do
    let f ← structFields true ["request_id", "tasks", "status"] v
    return {
      requestId := ← f.required "request_id"
      tasks := ← f.required "tasks"
      status := ← f.required "status" }

/-! ## Candidates -/

inductive SourceAlgo where
  | sha1 | sha256
  deriving DecidableEq, Repr

instance : UnitEnum SourceAlgo where
  name
    | .sha1 => "sha1" | .sha256 => "sha256"
  variants := [.sha1, .sha256]
  find_name a := by cases a <;> decide

inductive BindingMode where
  | reported | manifest
  deriving DecidableEq, Repr

instance : UnitEnum BindingMode where
  name
    | .reported => "reported" | .manifest => "manifest"
  variants := [.reported, .manifest]
  find_name a := by cases a <;> decide

structure GitSource where
  algo : SourceAlgo
  tree : String
  commit : Option String
  deriving DecidableEq

instance : Serialize GitSource where
  toValue g := .object
    [("algo", toValue g.algo), ("tree", toValue g.tree), ("commit", toValue g.commit)]

instance : Deserialize GitSource where
  fromValue v := do
    let f ← structFields true ["algo", "tree", "commit"] v
    return {
      algo := ← f.required "algo"
      tree := ← f.required "tree"
      commit := ← f.defaulted "commit" none }

structure SourceBinding where
  git : GitSource
  manifestHash : Option Hash256
  binding : BindingMode
  deriving DecidableEq

instance : Serialize SourceBinding where
  toValue s := .object
    [("git", toValue s.git), ("manifest_hash", toValue s.manifestHash),
      ("binding", toValue s.binding)]

instance : Deserialize SourceBinding where
  fromValue v := do
    let f ← structFields true ["git", "manifest_hash", "binding"] v
    return {
      git := ← f.required "git"
      manifestHash := ← f.defaulted "manifest_hash" none
      binding := ← f.required "binding" }

inductive CandidateBasis where
  | root | continuation | derivation
  deriving DecidableEq, Repr

instance : UnitEnum CandidateBasis where
  name
    | .root => "root" | .continuation => "continuation" | .derivation => "derivation"
  variants := [.root, .continuation, .derivation]
  find_name a := by cases a <;> decide

structure CandidateData where
  source : SourceBinding
  basis : CandidateBasis
  parent : Option RecordId
  note : Option String
  artifacts : Option (List ArtifactRef)
  deriving DecidableEq

instance : Serialize CandidateData where
  toValue d := .object
    ([("source", toValue d.source), ("basis", toValue d.basis), ("parent", toValue d.parent),
      ("note", toValue d.note)] ++ skipNone "artifacts" d.artifacts)

instance : Deserialize CandidateData where
  fromValue v := do
    let f ← structFields true ["source", "basis", "parent", "note", "artifacts"] v
    return {
      source := ← f.required "source"
      basis := ← f.required "basis"
      parent := ← f.defaulted "parent" none
      note := ← f.defaulted "note" none
      artifacts := ← f.defaulted "artifacts" none }

/-! ## Evaluations -/

/-- `MAX_SCORE_SCALE`. -/
def maxScoreScale : Nat := 12

/-- A bounded fixed-point score; the bounds are checked when it is decoded. -/
structure ScoredValue where
  value : Int
  scale : UInt8
  value_le : value.natAbs ≤ maxSafeInteger
  scale_le : scale.toNat ≤ maxScoreScale
  deriving DecidableEq

instance : Serialize ScoredValue where
  toValue s := .object [("value", toValue s.value), ("scale", toValue s.scale)]

/-- `ScoredValue::try_from`. -/
def ScoredValue.tryFrom (value : Int) (scale : UInt8) : Option ScoredValue :=
  if hv : value.natAbs ≤ maxSafeInteger then
    if hs : scale.toNat ≤ maxScoreScale then some ⟨value, scale, hv, hs⟩ else none
  else none

instance : Deserialize ScoredValue where
  fromValue v := do
    let f ← structFields true ["value", "scale"] v
    let value ← (f.members.lookup "value").bind fromI64
    let scale ← f.required "scale"
    ScoredValue.tryFrom value scale

inductive EvaluationOutcome where
  | passed
  | failed
  | scored (value : ScoredValue)
  deriving DecidableEq

/-- The encoding of a variant with content. -/
def taggedValue {α : Type} [Serialize α] (tag : String) (a : α) : Json :=
  .object [(tag, toValue a)]

instance : Serialize EvaluationOutcome where
  toValue
    | .passed => .string "passed"
    | .failed => .string "failed"
    | .scored s => taggedValue "scored" s

instance : Deserialize EvaluationOutcome where
  fromValue v := (enumTag v).bind fun
    | ("passed", none) | ("passed", some .null) => some .passed
    | ("failed", none) | ("failed", some .null) => some .failed
    | ("scored", some content) => (fromValue content).map .scored
    | _ => none

structure EvaluationData where
  candidate : RecordId
  criterion : String
  procedure : Option String
  outcome : EvaluationOutcome
  deriving DecidableEq

instance : Serialize EvaluationData where
  toValue d := .object
    [("candidate", toValue d.candidate), ("criterion", toValue d.criterion),
      ("procedure", toValue d.procedure), ("outcome", toValue d.outcome)]

instance : Deserialize EvaluationData where
  fromValue v := do
    let f ← structFields true ["candidate", "criterion", "procedure", "outcome"] v
    let data : EvaluationData := {
      candidate := ← f.required "candidate"
      criterion := ← f.required "criterion"
      procedure := ← f.defaulted "procedure" none
      outcome := ← f.required "outcome" }
    if data.criterion = "" then none else return data

inductive Basis where
  | recomputed | declared
  deriving DecidableEq, Repr

instance : UnitEnum Basis where
  name
    | .recomputed => "recomputed" | .declared => "declared"
  variants := [.recomputed, .declared]
  find_name a := by cases a <;> decide

structure DeciderBinding where
  id : String
  version : Option String
  procedureHash : Option Hash256
  inputHash : Option Hash256
  deriving DecidableEq

instance : Serialize DeciderBinding where
  toValue d := .object
    [("id", toValue d.id), ("version", toValue d.version),
      ("procedure_hash", toValue d.procedureHash), ("input_hash", toValue d.inputHash)]

instance : Deserialize DeciderBinding where
  fromValue v := do
    let f ← structFields true ["id", "version", "procedure_hash", "input_hash"] v
    return {
      id := ← f.required "id"
      version := ← f.defaulted "version" none
      procedureHash := ← f.defaulted "procedure_hash" none
      inputHash := ← f.defaulted "input_hash" none }

inductive EvaluationOutcomeV2 where
  | passed
  | failed
  | scored (value : ScoredValue)
  | blocked
  | insufficient
  | stale
  | notRun
  deriving DecidableEq

instance : Serialize EvaluationOutcomeV2 where
  toValue
    | .passed => .string "passed"
    | .failed => .string "failed"
    | .scored s => taggedValue "scored" s
    | .blocked => .string "blocked"
    | .insufficient => .string "insufficient"
    | .stale => .string "stale"
    | .notRun => .string "not_run"

instance : Deserialize EvaluationOutcomeV2 where
  fromValue v := (enumTag v).bind fun
    | ("passed", none) | ("passed", some .null) => some .passed
    | ("failed", none) | ("failed", some .null) => some .failed
    | ("scored", some content) => (fromValue content).map .scored
    | ("blocked", none) | ("blocked", some .null) => some .blocked
    | ("insufficient", none) | ("insufficient", some .null) => some .insufficient
    | ("stale", none) | ("stale", some .null) => some .stale
    | ("not_run", none) | ("not_run", some .null) => some .notRun
    | _ => none

/-- `format!("scored {}e-{}", s.value, s.scale)`. -/
def ScoredValue.label (s : ScoredValue) : String :=
  "scored " ++ toString s.value ++ "e-" ++ toString s.scale.toNat

/-- `EvaluationOutcomeV2::label`. -/
def EvaluationOutcomeV2.label : EvaluationOutcomeV2 → String
  | .passed => "passed"
  | .failed => "failed"
  | .scored s => s.label
  | .blocked => "blocked"
  | .insufficient => "insufficient"
  | .stale => "stale"
  | .notRun => "not_run"

structure EvaluationDataV2 where
  candidate : RecordId
  criterion : String
  procedure : Option String
  outcome : EvaluationOutcomeV2
  evaluator : DeciderBinding
  basis : Basis
  evidence : List ArtifactRef
  requirements : List RecordId
  deriving DecidableEq

instance : Serialize EvaluationDataV2 where
  toValue d := .object
    [("candidate", toValue d.candidate), ("criterion", toValue d.criterion),
      ("procedure", toValue d.procedure), ("outcome", toValue d.outcome),
      ("evaluator", toValue d.evaluator), ("basis", toValue d.basis),
      ("evidence", toValue d.evidence), ("requirements", toValue d.requirements)]

instance : Deserialize EvaluationDataV2 where
  fromValue v := do
    let f ← structFields true
      ["candidate", "criterion", "procedure", "outcome", "evaluator", "basis", "evidence",
        "requirements"] v
    let data : EvaluationDataV2 := {
      candidate := ← f.required "candidate"
      criterion := ← f.required "criterion"
      procedure := ← f.defaulted "procedure" none
      outcome := ← f.required "outcome"
      evaluator := ← f.required "evaluator"
      basis := ← f.required "basis"
      evidence := ← f.required "evidence"
      requirements := ← f.required "requirements" }
    if data.criterion = "" then none else return data

/-- `evaluation_summary`: the judged candidate, the criterion and the outcome label, by schema. -/
def Platform.evaluationSummary (P : Platform) (schema : Hash256) (data : Bytes) :
    Option (RecordId × String × String) :=
  if schema = P.schemaId schemaEvaluation then
    (P.decode EvaluationData data).map fun d =>
      (d.candidate, d.criterion, match d.outcome with
        | .passed => "passed"
        | .failed => "failed"
        | .scored s => s.label)
  else if schema = P.schemaId schemaEvaluationV2 ∨ schema = P.schemaId schemaEvaluationAttested then
    (P.decode EvaluationDataV2 data).map fun d => (d.candidate, d.criterion, d.outcome.label)
  else none

/-! ## Selections -/

inductive SelectionOutcome where
  | selected (candidates : List RecordId)
  | none
  deriving DecidableEq

instance : Serialize SelectionOutcome where
  toValue
    | .selected candidates => .object [("selected", .object [("candidates", toValue candidates)])]
    | .none => .string "none"

instance : Deserialize SelectionOutcome where
  fromValue v := (enumTag v).bind fun
    -- the enum has no `deny_unknown_fields`, so the struct variant ignores other members
    | ("selected", some content) =>
      (structFields false ["candidates"] content).bind fun f =>
        (f.required "candidates").map .selected
    | ("none", .none) | ("none", some .null) => some .none
    | _ => Option.none

structure SelectionData where
  objective : String
  considered : List RecordId
  outcome : SelectionOutcome
  rationale : Option String
  deriving DecidableEq

instance : Serialize SelectionData where
  toValue d := .object
    [("objective", toValue d.objective), ("considered", toValue d.considered),
      ("outcome", toValue d.outcome), ("rationale", toValue d.rationale)]

instance : Deserialize SelectionData where
  fromValue v := do
    let f ← structFields true ["objective", "considered", "outcome", "rationale"] v
    let data : SelectionData := {
      objective := ← f.required "objective"
      considered := ← f.required "considered"
      outcome := ← f.required "outcome"
      rationale := ← f.defaulted "rationale" Option.none }
    if data.objective = "" then Option.none else return data

/-- `SELECTION_APPROVAL_DOMAIN`. -/
def selectionApprovalDomain : String := "bellbook.selection-approval.v0.3"

/-- `selection_approval_subject_hash`. -/
def Platform.selectionApprovalSubjectHash (P : Platform) (authorId : ActorId)
    (replaceTarget : Option RecordId) (data : SelectionData) : Option Hash256 :=
  P.sha256Canonical (tuple4 selectionApprovalDomain authorId replaceTarget data)

/-- The target of an exact approval: the acting author together with the action. -/
def Platform.actionHash (P : Platform) (authorId : ActorId) (data : ActionData) : Option Hash256 :=
  P.sha256Canonical (tuple2 authorId data)

end Bellbook
