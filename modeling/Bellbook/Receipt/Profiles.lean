import Bellbook.Receipt.Receipt

/-!
# Profiles (`profiles/mod.rs`, `signed_v1.rs`, `delivery_v1.rs`)

A profile is a list of clauses over the rules, the records and the report of a receipt. Each of the
three evaluators gives its clauses in the order of its table; what a clause reports as detail is not
modelled, but for the binding modes of `bellbook-core-v1`.

The evaluators rebuild the state of an accepted log, and fail all clauses where that is impossible
(`evaluateOver`).
-/

namespace Bellbook

open Std

/-! ## Tables -/

/-- `BELLBOOK_CORE_V1`. -/
def bellbookCoreV1 : String := "bellbook-core-v1"

/-- `DELIVERY_RECEIPT_V1`. -/
def deliveryReceiptV1 : String := "delivery-receipt-v1"

/-- `BELLBOOK_CORE_SIGNED_V1`. -/
def bellbookCoreSignedV1 : String := "bellbook-core-signed-v1"

structure Clause where
  id : String
  statement : String

structure ProfileTable where
  id : String
  version : UInt32
  clauses : List Clause

instance : Serialize Clause where
  toValue c := .object [("id", toValue c.id), ("statement", toValue c.statement)]

instance : Serialize ProfileTable where
  toValue t := .object
    [("id", toValue t.id), ("version", toValue t.version), ("clauses", toValue t.clauses)]

/-- `core_v1_table`. -/
def coreV1Table : ProfileTable where
  id := bellbookCoreV1
  version := 1
  clauses :=
    [⟨"B1", "The receipt validates Clean or Tainted; an Invalid receipt never conforms."⟩,
      ⟨"B2", "author_roles is non-empty, and every accepted record's author is registered in it."⟩,
      ⟨"B3", "evidence_thresholds carries entries for Candidate, Evaluation, and Selection, each no weaker than the schema base class (Reported, Reported, Inferred)."⟩,
      ⟨"B4", "max_context_records is declared within 1..=100000."⟩,
      ⟨"B5", "Retraction and reaffirmation authority are readable from the rules: admin_retraction_actors and reaffirmation_actors are reported."⟩,
      ⟨"B6", "The source binding mode of every accepted Candidate (Manifest or Reported) is reported; neither is required."⟩]

/-- The table of `delivery-receipt-v1`. -/
def deliveryV1Table : ProfileTable where
  id := deliveryReceiptV1
  version := 1
  clauses :=
    [⟨"D0", "At least one delivery claim exists: an accepted Selection with outcome Selected whose Used evaluations bind to requirements of exactly one Request. For each request the latest sound claim is evaluated; earlier ones are reported superseded."⟩,
      ⟨"D1", "Every accepted, unretracted Requirement with required true under the claim's request, as of the receipt head, has at least one evaluation among the claim's Used evaluations that references it with outcome passed."⟩,
      ⟨"D2", "No evaluation among the claim's Used evaluations that references a required requirement has an outcome other than passed."⟩,
      ⟨"D3", "The claim chooses exactly one candidate; every evaluation it uses judges that candidate, carries a non-empty evidence set, and every evidence reference appears in the candidate's artifacts or in the artifacts of an accepted Result in the same thread."⟩,
      ⟨"D4", "The author of every evaluation the claim uses is a different actor from the author of the claimed candidate."⟩,
      ⟨"D5", "Every evaluation the claim uses carries evaluator.id, evaluator.procedure_hash, evaluator.input_hash, and a declared basis; the weakest basis in the claim is reported."⟩,
      ⟨"D6", "The receipt conforms to bellbook-core-v1 (or a stronger tier), and if it declares that profile the declaration names the evaluated table."⟩,
      ⟨"D7", "The claim's Selection is sound, untainted, and unretracted at the receipt head."⟩]

/-- The table of `bellbook-core-signed-v1`. -/
def signedV1Table : ProfileTable where
  id := bellbookCoreSignedV1
  version := 1
  clauses :=
    [⟨"S0", "The receipt conforms to bellbook-core-v1, and if it declares that profile the declaration names the evaluated table."⟩,
      ⟨"S1", "signature_required_kinds includes Candidate, Evaluation, Selection, Retraction, and Requirement."⟩,
      ⟨"S2", "author_keys pins every actor that authored an accepted Candidate, Evaluation, Selection, Retraction, or Requirement."⟩,
      ⟨"S3", "Every evaluation Used by an accepted Selection with outcome Selected carries the schema bellbook.evaluation.attested.v1."⟩]

/-- `profile_table`. -/
def profileTable (id : String) : Option ProfileTable :=
  if id = bellbookCoreV1 then some coreV1Table
  else if id = deliveryReceiptV1 then some deliveryV1Table
  else if id = bellbookCoreSignedV1 then some signedV1Table
  else none

/-- `SIGNED_KINDS`. -/
def signedKinds : List Kind := [.candidate, .evaluation, .selection, .retraction, .requirement]

/-- `ProfileResult::met`. -/
def ProfileResult.met (r : ProfileResult) : Bool :=
  r.status = .conformant && r.declarationMatches ≠ some false

/-- The clauses of a table, all failed. -/
def ProfileTable.allFailed (t : ProfileTable) : List ClauseResult :=
  t.clauses.map fun c => ⟨c.id, false⟩

/-! ## The records of a receipt -/

namespace Receipt

variable (r : Receipt) (s : State)

/-- The records by id; of two with one id the later counts. -/
def byId : IdMap Record := r.records.foldl (fun m x => m.insert x.id x) ∅

def isAccepted (id : RecordId) : Bool := id ∈ s.acceptedRecords && id ∈ r.byId

/-- The accepted Evaluations a record uses, in ref order. -/
def usedEvaluations (x : Record) : List Record :=
  ((refTargets .use x.refs).filterMap fun id => r.byId[id]?).filter fun t =>
    t.kind = .evaluation && r.isAccepted s t.id

/-- The Request a Requirement belongs to. -/
def requirementRequest (id : RecordId) : Option RecordId :=
  r.byId[id]?.bind fun x =>
    if x.kind = .requirement && r.isAccepted s id then x.firstCause else none

end Receipt

/-- One delivery claim. -/
structure DeliveryClaim where
  selection : Record
  request : RecordId
  chosen : List RecordId
  used : List Record

namespace Platform

variable (P : Platform)

/-- `profile_hash`. -/
def profileHash (t : ProfileTable) : Hash256 := (P.sha256Canonical t).getD 0

/-- `finish`: the result of the evaluated clauses. -/
def finishProfile (t : ProfileTable) (clauses : List ClauseResult) : ProfileResult where
  id := t.id
  hash := P.profileHash t
  status := if clauses.all ClauseResult.passed then .conformant else .nonConformant
  clauses := clauses
  declared := false
  declarationMatches := none

/-- The clauses that need the state of the log: an invalid receipt fails all of them, and so would
a log whose state cannot be rebuilt. -/
def evaluateOver (t : ProfileTable) (r : Receipt) (report : Report)
    (clauses : State → List ClauseResult) : ProfileResult :=
  if report.status = .invalid then P.finishProfile t t.allFailed
  else match P.buildStateUnchecked r.records with
    | none => P.finishProfile t t.allFailed
    | some s => P.finishProfile t (clauses s)

/-! ## `bellbook-core-v1` -/

/-- A threshold that is set, and no weaker than the base class. -/
def thresholdSet (rules : VerifierRules) (kind : Kind) (base : Evidence) : Bool :=
  rules.evidenceThresholds[kind]?.any fun t => t ≤ base

/-- What clause B6 reports: how many accepted Candidates are bound by a manifest and how many are
only reported. -/
def candidateBindings (r : Receipt) (report : Report) : Nat × Nat :=
  if report.status = .invalid then (0, 0)
  else
    let accepted := ((P.buildStateUnchecked r.records).map State.acceptedRecords).getD ∅
    let modes := (r.records.filter fun x => x.kind = .candidate && x.id ∈ accepted).filterMap
      fun x => (P.decode CandidateData x.data).map fun d => d.source.binding
    (modes.countP (· = .manifest), modes.countP (· = .reported))

/-- `evaluate_core_v1`. -/
def evaluateCoreV1 (r : Receipt) (report : Report) : ProfileResult :=
  P.finishProfile coreV1Table
    [⟨"B1", report.status ≠ .invalid⟩,
      ⟨"B2", !r.rules.authorRoles.isEmpty⟩,
      ⟨"B3", thresholdSet r.rules .candidate .reported && thresholdSet r.rules .evaluation .reported &&
        thresholdSet r.rules .selection .inferred⟩,
      ⟨"B4", 1 ≤ r.rules.maxContextRecords && r.rules.maxContextRecords ≤ 100000⟩,
      ⟨"B5", true⟩,
      ⟨"B6", true⟩]

/-- What a declaration adds to the result of an evaluation. -/
def declaredResult (decl : ProfileRef) (result : ProfileResult) : ProfileResult :=
  { result with
    declared := true
    declarationMatches := match profileTable decl.id with
      | some t => some (decl.version = t.version && decl.hash = result.hash)
      | none => result.declarationMatches }

/-- The baseline, as declared or else as the fallback. -/
def evaluateBaseline (r : Receipt) (report : Report) : ProfileResult :=
  match r.profiles.find? fun p => p.id = bellbookCoreV1 with
  | some decl => declaredResult decl (P.evaluateCoreV1 r report)
  | none => P.evaluateCoreV1 r report

/-! ## `bellbook-core-signed-v1` -/

/-- The Selections that chose something, accepted. -/
def selectedSelections (r : Receipt) (s : State) : List (Record × List RecordId) :=
  (r.records.filter fun x => x.kind = .selection && r.isAccepted s x.id).filterMap fun x =>
    (P.decode SelectionData x.data).bind fun d =>
      match d.outcome with
      | .selected chosen => some (x, chosen)
      | .none => none

/-- The clauses S0 to S3. -/
def signedClauses (r : Receipt) (report : Report) (s : State) : List ClauseResult :=
  [⟨"S0", (P.evaluateBaseline r report).met⟩,
    ⟨"S1", signedKinds.all fun k => k ∈ r.rules.signatureRequiredKinds⟩,
    ⟨"S2", (r.records.filter fun x => x.kind ∈ signedKinds && r.isAccepted s x.id).all fun x =>
      x.author.id ∈ r.rules.authorKeys⟩,
    ⟨"S3", (P.selectedSelections r s).all fun x => (r.usedEvaluations s x.1).all fun e =>
      e.schema = P.schemaId schemaEvaluationAttested⟩]

/-- `signed_v1::evaluate`. -/
def evaluateSigned (r : Receipt) (report : Report) : ProfileResult :=
  P.evaluateOver signedV1Table r report (P.signedClauses r report)

/-! ## `delivery-receipt-v1` -/

/-- The Evaluations of the extended shape among some records. -/
def evaluationsV2 (xs : List Record) : List (Record × EvaluationDataV2) :=
  xs.filterMap fun e => (P.decode EvaluationDataV2 e.data).map fun d => (e, d)

/-- The Requests that the requirements of some Evaluations belong to. -/
def boundRequests (r : Receipt) (s : State) (used : List Record) : IdSet :=
  ((P.evaluationsV2 used).flatMap fun e => e.2.requirements.filterMap (r.requirementRequest s)).foldl
    ExtTreeSet.insert ∅

/-- The claims of a receipt: Selections whose Evaluations bind to exactly one Request. -/
def deliveryClaims (r : Receipt) (s : State) : List DeliveryClaim :=
  (P.selectedSelections r s).filterMap fun x =>
    let used := r.usedEvaluations s x.1
    match (P.boundRequests r s used).toList with
    | [request] => some { selection := x.1, request, chosen := x.2, used }
    | _ => none

/-- The Selection is sound, unretracted and untainted. -/
def stands (report : Report) (x : Record) : Bool :=
  x.id ∉ report.standing.unsound && x.id ∉ report.retractedRecords && x.id ∉ report.taintedRecords

def claimLE (a b : DeliveryClaim) : Prop := a.selection.time ≤ b.selection.time

instance : DecidableRel claimLE := fun _ _ => inferInstanceAs (Decidable (_ ≤ _))

/-- The claim that is evaluated for a Request: the latest one that stands, else the latest. -/
def pickClaim (report : Report) (claims : List DeliveryClaim) (request : RecordId) :
    Option DeliveryClaim :=
  let group := (claims.filter fun c => c.request = request).insertionSort claimLE
  (group.filter fun c => stands report c.selection).getLast? <|> group.getLast?

/-- The evaluated claims, in log order. -/
def evaluatedClaims (r : Receipt) (report : Report) (s : State) : List DeliveryClaim :=
  let claims := P.deliveryClaims r s
  let requests := claims.foldl (fun (set : IdSet) c => set.insert c.request) ∅
  (requests.toList.filterMap (pickClaim report claims)).insertionSort claimLE

/-- The required Requirements of a Request, at the head. -/
def requiredRequirements (r : Receipt) (report : Report) (s : State) (request : RecordId) :
    List RecordId :=
  (r.records.filter fun x => x.kind = .requirement && r.isAccepted s x.id &&
    x.id ∉ report.retractedRecords && r.requirementRequest s x.id = some request &&
    ((P.decode RequirementData x.data).map RequirementData.required).getD false).map Record.id

/-- D1: every required Requirement is covered by a passed, unretracted Evaluation. -/
def covered (report : Report) (required : List RecordId) (used : List (Record × EvaluationDataV2)) :
    Bool :=
  required.all fun id => used.any fun e =>
    e.1.id ∉ report.retractedRecords && e.2.outcome = .passed && id ∈ e.2.requirements

/-- D2: no Evaluation of a required Requirement has another outcome. -/
def truthful (required : List RecordId) (used : List (Record × EvaluationDataV2)) : Bool :=
  used.all fun e => !(e.2.requirements.any (· ∈ required)) || e.2.outcome = .passed

/-- The artifacts on the record for a claim: those of its candidate, and of the accepted Results in
its thread. -/
def onRecord (r : Receipt) (s : State) (c : DeliveryClaim) (candidate : Record) :
    List (String × String) :=
  let own := ((P.decode CandidateData candidate.data).bind CandidateData.artifacts).getD []
  let results := (r.records.filter fun x =>
      x.kind = .result && r.isAccepted s x.id && x.thread = c.selection.thread).flatMap fun x =>
    ((P.decode ResultData x.data).bind ResultData.artifacts).getD []
  (own ++ results).map fun a => (a.scheme, a.digest)

/-- The single candidate of a claim. -/
def chosenCandidate (c : DeliveryClaim) : Option RecordId :=
  match c.chosen with
  | [id] => some id
  | _ => none

/-- D3: one candidate, which every Evaluation judges on evidence that is on the record. -/
def boundToCandidate (r : Receipt) (s : State) (c : DeliveryClaim) : Bool :=
  let used := P.evaluationsV2 c.used
  let chosen := chosenCandidate c
  let artifacts := ((chosen.bind fun id => r.byId[id]?).map (P.onRecord r s c)).getD []
  chosen.isSome && used.length = c.used.length && used.all fun e =>
    some e.2.candidate = chosen && !e.2.evidence.isEmpty &&
      e.2.evidence.all fun a => (a.scheme, a.digest) ∈ artifacts

/-- D4: the producer judged nothing. -/
def separated (r : Receipt) (c : DeliveryClaim) : Bool :=
  ((chosenCandidate c).bind fun id => r.byId[id]?).any fun candidate =>
    c.used.all fun e => e.author.id ≠ candidate.author.id

/-- D5: every Evaluation binds its decider. -/
def decidersBound (c : DeliveryClaim) : Bool :=
  let used := P.evaluationsV2 c.used
  used.length = c.used.length && !used.isEmpty && used.all fun e =>
    e.2.evaluator.procedureHash.isSome && e.2.evaluator.inputHash.isSome

/-- The clauses D0 to D7; a clause holds when it does for every evaluated claim. -/
def deliveryClauses (r : Receipt) (report : Report) (s : State) : List ClauseResult :=
  let claims := P.evaluatedClaims r report s
  if claims = [] then deliveryV1Table.allFailed
  else
    [⟨"D0", true⟩,
      ⟨"D1", claims.all fun c =>
        covered report (P.requiredRequirements r report s c.request) (P.evaluationsV2 c.used)⟩,
      ⟨"D2", claims.all fun c =>
        truthful (P.requiredRequirements r report s c.request) (P.evaluationsV2 c.used)⟩,
      ⟨"D3", claims.all (P.boundToCandidate r s)⟩,
      ⟨"D4", claims.all (separated r)⟩,
      ⟨"D5", claims.all P.decidersBound⟩,
      ⟨"D6", (P.evaluateBaseline r report).met⟩,
      ⟨"D7", claims.all fun c => stands report c.selection⟩]

/-- `delivery_v1::evaluate`. -/
def evaluateDelivery (r : Receipt) (report : Report) : ProfileResult :=
  P.evaluateOver deliveryV1Table r report (P.deliveryClauses r report)

/-! ## All of them -/

/-- `evaluate_profile`. -/
def evaluateProfile (id : String) (r : Receipt) (report : Report) : ProfileResult :=
  if id = bellbookCoreV1 then P.evaluateCoreV1 r report
  else if id = deliveryReceiptV1 then P.evaluateDelivery r report
  else if id = bellbookCoreSignedV1 then P.evaluateSigned r report
  else { id, hash := 0, status := .unknown, clauses := [], declared := false, declarationMatches := none }

/-- `evaluate_declared`. -/
def evaluateDeclared (decl : ProfileRef) (r : Receipt) (report : Report) : ProfileResult :=
  declaredResult decl (P.evaluateProfile decl.id r report)

/-- `evaluate_profiles`. -/
def evaluateProfiles (r : Receipt) (report : Report) (required : List String) :
    List ProfileResult :=
  required.foldl (fun out id =>
      if out.any (fun p => p.id = id) then out else out ++ [P.evaluateProfile id r report])
    (r.profiles.map fun decl => P.evaluateDeclared decl r report)

end Platform

end Bellbook
