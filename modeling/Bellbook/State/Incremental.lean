import Bellbook.State.State

/-!
# The incremental fold (`state/incremental.rs`)

`applyRecord` folds one subject and its verdict into the state; a rejected subject changes nothing.

The fold of an accepted record has two stages. `State.accept` does what every kind does: the id
becomes accepted, its `Use` and `Require` refs enter the reverse dependence index, and the record
inherits taint from its targets. Then each kind has its own effect, one definition each
(`foldAction`, `foldRetraction`, …), written as one record update so that the untouched fields are
visibly untouched.

`Folded` lists what the second stage can do, one constructor for each kind; every invariant of the
state is proved from it (`folded_of_foldKind`).
-/

namespace Bellbook

open Std

/-! ## Taint -/

/-- The accepted records resting on `id`. -/
def dependentsOf (dependents : IdMap IdSet) (id : RecordId) : List RecordId :=
  ((dependents[id]?).map ExtTreeSet.toList).getD []

/-- `mark_tainted`: mark a record and everything that rests on it. -/
def markTainted (dependents : IdMap IdSet) (tainted : IdSet) (id : RecordId) : IdSet :=
  Worklist.mark (dependentsOf dependents)
    (Worklist.fuelFor (dependentsOf dependents) dependents.keys [id]) tainted [id]

/-- The loop of the Retraction fold over the direct dependents of its target. -/
def markAllTainted (dependents : IdMap IdSet) (tainted : IdSet) (ids : List RecordId) : IdSet :=
  ids.foldl (markTainted dependents) tainted

/-! ## The stage common to all kinds -/

/-- `entry(target).or_default().insert(id)`. -/
def addDependent (id : RecordId) (dependents : IdMap IdSet) (ref : Ref) : IdMap IdSet :=
  if ref.type.epistemic then
    dependents.insert ref.target ((dependents[ref.target]?.getD ∅).insert id)
  else dependents

/-- Whether some epistemic ref names a retracted or tainted record. -/
def State.inheritsTaint (s : State) (r : Record) : Bool :=
  r.refs.any fun ref => ref.type.epistemic &&
    (ref.target ∈ s.retractedRecords || ref.target ∈ s.taintedRecords)

/-- What every accepted record does to the state. -/
def State.accept (s : State) (r : Record) : State :=
  let dependents := r.refs.foldl (addDependent r.id) s.epistemicDependents
  { s with
    acceptedRecords := s.acceptedRecords.insert r.id
    epistemicDependents := dependents
    taintedRecords :=
      if s.inheritsTaint r then markTainted dependents s.taintedRecords r.id
      else s.taintedRecords }

/-! ## The effect of each kind -/

def Record.hasRequireRef (r : Record) (target : RecordId) : Bool :=
  r.refs.any fun ref => ref.type = .require && ref.target = target

/-- The exact approval a record consumes: the one its subject hash resolves to, when the record
`Require`s it. -/
def State.consumedApproval (s : State) (r : Record) (hash : Hash256) : Option RecordId :=
  s.validApprovals[hash]?.filter fun id => r.hasRequireRef id

/-- `valid_approvals` after `r` has used the approval of `hash`. -/
def State.spendApproval (s : State) (r : Record) (hash : Hash256) : IdMap RecordId :=
  match s.consumedApproval r hash with
  | some _ => s.validApprovals.erase hash
  | none => s.validApprovals

/-- `exact_approval_index` after `r` has used the approval of `hash`. -/
def State.spendApprovalIndex (s : State) (r : Record) (hash : Hash256) : IdMap Hash256 :=
  match s.consumedApproval r hash with
  | some id => s.exactApprovalIndex.erase id
  | none => s.exactApprovalIndex

def State.foldRequest (s : State) (r : Record) : State :=
  { s with activeRequests := s.activeRequests.insert r.id }

def State.foldAction (s : State) (r : Record) (data : ActionData) (hash : Hash256) : State :=
  { s with
    validApprovals := s.spendApproval r hash
    exactApprovalIndex := s.spendApprovalIndex r hash
    openActions := s.openActions.insert r.id
    actionToRequest := s.actionToRequest.insert r.id data.requestId
    requestOpenActionCount := s.requestOpenActionCount.insert data.requestId
      (s.requestOpenActionCount[data.requestId]?.getD 0 + 1) }

/-- `close_action_for_request`, on the counts. -/
def State.closeActionCount (s : State) (actionId : RecordId) : IdMap Nat :=
  match s.actionToRequest[actionId]? with
  | none => s.requestOpenActionCount
  | some requestId =>
    match s.requestOpenActionCount[requestId]? with
    | none => s.requestOpenActionCount
    | some count =>
      if count - 1 = 0 then s.requestOpenActionCount.erase requestId
      else s.requestOpenActionCount.insert requestId (count - 1)

/-- Close an action, for a Result or for a Refusal of the action. -/
def State.closeAction (s : State) (actionId : RecordId) : State :=
  { s with
    openActions := s.openActions.erase actionId
    requestOpenActionCount := s.closeActionCount actionId }

/-- Close a request, for a closing Response or for a Refusal of the request. -/
def State.closeRequest (s : State) (requestId : RecordId) : State :=
  { s with
    activeRequests := s.activeRequests.erase requestId
    activePlans := s.activePlans.erase requestId }

def State.foldRefusal (s : State) (data : RefusalData) : State :=
  match data.targetKind with
  | .action => s.closeAction data.targetId
  | .request => s.closeRequest data.targetId
  | .verifiedEffect => s

/-- The target of a Replace ref becomes replaced. -/
def State.replaced (s : State) (r : Record) : IdSet :=
  match findReplaceRef r.refs with
  | some id => s.replacedRecords.insert id
  | none => s.replacedRecords

def CapabilityData.key (d : CapabilityData) : CapabilityKey := (d.actorId, d.actionClass, d.scope)

def State.foldCapability (s : State) (r : Record) (data : CapabilityData) : State :=
  { s with
    replacedRecords := s.replaced r
    capabilityIndex := s.capabilityIndex.insert r.id data.key
    activeCapabilities := s.activeCapabilities.insert data.key r.id }

/-- Insert under a key that may be absent. -/
def insertOpt {α β : Type} [Ord α] [TransOrd α] (m : ExtTreeMap α β) (key : Option α) (value : β) :
    ExtTreeMap α β :=
  match key with
  | some k => m.insert k value
  | none => m

/-- Record a value that may be absent. -/
def insertVal {α β : Type} [Ord α] [TransOrd α] (m : ExtTreeMap α β) (key : α)
    (value : Option β) : ExtTreeMap α β :=
  match value with
  | some v => m.insert key v
  | none => m

/-- The key of a class-form approval. -/
def ApprovalData.classKey (d : ApprovalData) : Option ClassApprovalKey :=
  d.actionClass.map fun c => (c, d.scope, d.actorId)

def State.foldApproval (s : State) (r : Record) (data : ApprovalData) : State :=
  { s with
    replacedRecords := s.replaced r
    exactApprovalIndex := insertVal s.exactApprovalIndex r.id data.targetAction
    validApprovals := insertOpt s.validApprovals data.targetAction r.id
    classApprovalIndex := insertVal s.classApprovalIndex r.id data.classKey
    classApprovals := insertOpt s.classApprovals data.classKey r.id }

def State.foldSummary (s : State) (r : Record) (key : Hash256) : State :=
  { s with
    replacedRecords := s.replaced r
    activeSummaries := s.activeSummaries.insert key r.id }

/-- Tally one usage report. -/
def UsageOutcomeCounts.tally (c : UsageOutcomeCounts) : UsageOutcome → UsageOutcomeCounts
  | .done => { c with done := c.done + 1 }
  | .notDone => { c with notDone := c.notDone + 1 }
  | .noChange => { c with noChange := c.noChange + 1 }

def State.foldUsage (s : State) (data : UsageData) : State :=
  let key := (data.usedRecord, data.role)
  { s with usageCounts := s.usageCounts.insert key ((s.usageCounts[key]?.getD {}).tally data.outcome) }

def State.foldPlan (s : State) (r : Record) (data : PlanData) : State :=
  { s with
    replacedRecords := s.replaced r
    activePlans :=
      if data.status = .completed ∨ data.status = .abandoned then
        (s.activePlans.insert data.requestId r.id).erase data.requestId
      else s.activePlans.insert data.requestId r.id }

/-- Deactivate a retracted grant, if the active slot still points at it. -/
def releaseSlot {κ : Type} [Ord κ] [TransOrd κ] (index : IdMap κ) (active : ExtTreeMap κ RecordId)
    (target : RecordId) : ExtTreeMap κ RecordId :=
  match index[target]? with
  | some key => if active[key]? = some target then active.erase key else active
  | none => active

/-- A retracted Requirement releases its key; the reverse index entry stays. -/
def State.releaseKey (s : State) (target : RecordId) : IdMap (ExtTreeSet String) :=
  match s.requirementIndex[target]? with
  | some (requestId, key) =>
    match s.requirementKeys[requestId]? with
    | some keys =>
      if (keys.erase key).isEmpty then s.requirementKeys.erase requestId
      else s.requirementKeys.insert requestId (keys.erase key)
    | none => s.requirementKeys
  | none => s.requirementKeys

def State.foldRetraction (s : State) (data : RetractionData) : State :=
  { s with
    retractedRecords := s.retractedRecords.insert data.targetId
    taintedRecords := markAllTainted s.epistemicDependents s.taintedRecords
      (dependentsOf s.epistemicDependents data.targetId)
    activeCapabilities := releaseSlot s.capabilityIndex s.activeCapabilities data.targetId
    validApprovals := releaseSlot s.exactApprovalIndex s.validApprovals data.targetId
    classApprovals := releaseSlot s.classApprovalIndex s.classApprovals data.targetId
    requirementKeys := s.releaseKey data.targetId }

/-- `u32::saturating_add(1)`. -/
def saturatingSucc (n : UInt32) : UInt32 := if n.toNat = 4294967295 then n else n + 1

def State.foldResponse (s : State) (data : ResponseData) : State :=
  let s := { s with
    responseTurns := s.responseTurns.insert data.requestId
      (saturatingSucc (s.responseTurns[data.requestId]?.getD 0)) }
  if data.closesRequest then s.closeRequest data.requestId else s

/-- The Request a Requirement is filed under: the target of its first Cause ref. -/
def Record.firstCause (r : Record) : Option RecordId :=
  (r.refs.find? fun ref => ref.type = .cause).map Ref.target

def State.foldRequirement (s : State) (r : Record) (data : RequirementData) : State :=
  match r.firstCause with
  | some requestId =>
    { s with
      requirementKeys := s.requirementKeys.insert requestId
        ((s.requirementKeys[requestId]?.getD ∅).insert data.key)
      requirementIndex := s.requirementIndex.insert r.id (requestId, data.key) }
  | none => s

def State.foldSelection (s : State) (r : Record) (hash : Hash256) : State :=
  { s with
    replacedRecords := s.replaced r
    validApprovals := s.spendApproval r hash
    exactApprovalIndex := s.spendApprovalIndex r hash }

namespace Platform

variable (P : Platform)

/-- The key of an active summary. -/
def summaryKey (d : SummaryData) : Option Hash256 :=
  P.sha256Canonical (tuple3 d.summaryType d.subject d.scope)

/-- The `match record.kind` of `apply_accepted`. -/
def foldKind (s : State) (r : Record) : Option State :=
  match r.kind with
  | .request => some (s.foldRequest r)
  | .action => do
    let data ← P.decode ActionData r.data
    let hash ← P.actionHash r.author.id data
    return s.foldAction r data hash
  | .result => do
    let data ← P.decode ResultData r.data
    return s.closeAction data.actionId
  | .refusal => do
    let data ← P.decode RefusalData r.data
    return s.foldRefusal data
  | .capability => do
    let data ← P.decode CapabilityData r.data
    return s.foldCapability r data
  | .approval => do
    let data ← P.decode ApprovalData r.data
    return s.foldApproval r data
  | .summary => do
    let data ← P.decode SummaryData r.data
    let key ← P.summaryKey data
    return s.foldSummary r key
  | .usage => do
    let data ← P.decode UsageData r.data
    return s.foldUsage data
  | .plan => do
    let data ← P.decode PlanData r.data
    return s.foldPlan r data
  | .retraction => do
    let data ← P.decode RetractionData r.data
    return s.foldRetraction data
  | .response => do
    let data ← P.decode ResponseData r.data
    return s.foldResponse data
  | .verdict => some s
  | .candidate => some s
  | .evaluation => some s
  | .requirement => do
    let data ← P.decode RequirementData r.data
    return s.foldRequirement r data
  | .selection => do
    let data ← P.decode SelectionData r.data
    let hash ← P.selectionApprovalSubjectHash r.author.id (findReplaceRef r.refs) data
    return s.foldSelection r hash

/-- `apply_accepted`. -/
def applyAccepted (s : State) (r : Record) : Option State := P.foldKind (s.accept r) r

/-- `apply_record`. -/
def applyRecord (s : State) (r : Record) (verdict : VerdictData) : Option State :=
  match verdict.result with
  | .accept => P.applyAccepted s r
  | .reject => some s

end Platform

/-! ## What one fold can do -/

/-- The effect of the kind of an accepted record, with the data it was read from. -/
inductive Folded (P : Platform) (s : State) (r : Record) : State → Prop
  | request (hk : r.kind = .request) : Folded P s r (s.foldRequest r)
  | action (hk : r.kind = .action) {data : ActionData} (hd : P.decode ActionData r.data = some data)
      {hash : Hash256} (hh : P.actionHash r.author.id data = some hash) :
      Folded P s r (s.foldAction r data hash)
  | result (hk : r.kind = .result) {data : ResultData} (hd : P.decode ResultData r.data = some data) :
      Folded P s r (s.closeAction data.actionId)
  | refusal (hk : r.kind = .refusal) {data : RefusalData}
      (hd : P.decode RefusalData r.data = some data) : Folded P s r (s.foldRefusal data)
  | capability (hk : r.kind = .capability) {data : CapabilityData}
      (hd : P.decode CapabilityData r.data = some data) : Folded P s r (s.foldCapability r data)
  | approval (hk : r.kind = .approval) {data : ApprovalData}
      (hd : P.decode ApprovalData r.data = some data) : Folded P s r (s.foldApproval r data)
  | summary (hk : r.kind = .summary) {data : SummaryData}
      (hd : P.decode SummaryData r.data = some data) {key : Hash256}
      (hkey : P.summaryKey data = some key) : Folded P s r (s.foldSummary r key)
  | usage (hk : r.kind = .usage) {data : UsageData} (hd : P.decode UsageData r.data = some data) :
      Folded P s r (s.foldUsage data)
  | plan (hk : r.kind = .plan) {data : PlanData} (hd : P.decode PlanData r.data = some data) :
      Folded P s r (s.foldPlan r data)
  | retraction (hk : r.kind = .retraction) {data : RetractionData}
      (hd : P.decode RetractionData r.data = some data) : Folded P s r (s.foldRetraction data)
  | response (hk : r.kind = .response) {data : ResponseData}
      (hd : P.decode ResponseData r.data = some data) : Folded P s r (s.foldResponse data)
  | inert (hk : r.kind = .verdict ∨ r.kind = .candidate ∨ r.kind = .evaluation) : Folded P s r s
  | requirement (hk : r.kind = .requirement) {data : RequirementData}
      (hd : P.decode RequirementData r.data = some data) : Folded P s r (s.foldRequirement r data)
  | selection (hk : r.kind = .selection) {data : SelectionData}
      (hd : P.decode SelectionData r.data = some data) {hash : Hash256}
      (hh : P.selectionApprovalSubjectHash r.author.id (findReplaceRef r.refs) data = some hash) :
      Folded P s r (s.foldSelection r hash)

/-! The three folds that branch, as one update each. -/

theorem State.foldRefusal_eq (s : State) (data : RefusalData) :
    ∃ requests plans actions counts, s.foldRefusal data = { s with
      activeRequests := requests, activePlans := plans, openActions := actions
      requestOpenActionCount := counts } := by
  unfold State.foldRefusal
  cases data.targetKind <;> exact ⟨_, _, _, _, rfl⟩

theorem State.foldResponse_eq (s : State) (data : ResponseData) :
    ∃ turns requests plans, s.foldResponse data = { s with
      responseTurns := turns, activeRequests := requests, activePlans := plans } := by
  unfold State.foldResponse
  cases data.closesRequest <;> exact ⟨_, _, _, rfl⟩

theorem State.foldRequirement_eq (s : State) (r : Record) (data : RequirementData) :
    ∃ keys index, s.foldRequirement r data = { s with
      requirementKeys := keys, requirementIndex := index } := by
  unfold State.foldRequirement
  cases r.firstCause <;> exact ⟨_, _, rfl⟩

theorem folded_of_foldKind {P : Platform} {s s' : State} {r : Record}
    (h : P.foldKind s r = some s') : Folded P s r s' := by
  unfold Platform.foldKind at h
  cases hk : r.kind <;> simp only [hk] at h
  case request => cases h; exact .request hk
  case verdict => cases h; exact .inert (.inl hk)
  case candidate => cases h; exact .inert (.inr (.inl hk))
  case evaluation => cases h; exact .inert (.inr (.inr hk))
  case action =>
    obtain ⟨data, hd, h⟩ := Option.bind_eq_some_iff.mp h
    obtain ⟨hash, hh, h⟩ := Option.bind_eq_some_iff.mp h
    cases h; exact .action hk hd hh
  case summary =>
    obtain ⟨data, hd, h⟩ := Option.bind_eq_some_iff.mp h
    obtain ⟨key, hkey, h⟩ := Option.bind_eq_some_iff.mp h
    cases h; exact .summary hk hd hkey
  case selection =>
    obtain ⟨data, hd, h⟩ := Option.bind_eq_some_iff.mp h
    obtain ⟨hash, hh, h⟩ := Option.bind_eq_some_iff.mp h
    cases h; exact .selection hk hd hh
  case result => obtain ⟨_, hd, h⟩ := Option.bind_eq_some_iff.mp h; cases h; exact .result hk hd
  case refusal => obtain ⟨_, hd, h⟩ := Option.bind_eq_some_iff.mp h; cases h; exact .refusal hk hd
  case capability =>
    obtain ⟨_, hd, h⟩ := Option.bind_eq_some_iff.mp h; cases h; exact .capability hk hd
  case approval => obtain ⟨_, hd, h⟩ := Option.bind_eq_some_iff.mp h; cases h; exact .approval hk hd
  case usage => obtain ⟨_, hd, h⟩ := Option.bind_eq_some_iff.mp h; cases h; exact .usage hk hd
  case plan => obtain ⟨_, hd, h⟩ := Option.bind_eq_some_iff.mp h; cases h; exact .plan hk hd
  case retraction =>
    obtain ⟨_, hd, h⟩ := Option.bind_eq_some_iff.mp h; cases h; exact .retraction hk hd
  case response => obtain ⟨_, hd, h⟩ := Option.bind_eq_some_iff.mp h; cases h; exact .response hk hd
  case requirement =>
    obtain ⟨_, hd, h⟩ := Option.bind_eq_some_iff.mp h; cases h; exact .requirement hk hd

end Bellbook
