import Bellbook.Verify.Replay

/-!
# What a check looks at

The verdict on a record depends on the prior records only through lookups of the ids it mentions
(its refs and the ids in its payload), of the ids the state holds as authority, and of the actions
behind accepted results. Two prior views that agree on these give the same verdict
(`checkSubject_congr`).
-/

namespace Bellbook

open Std

namespace Platform

variable (P : Platform)

/-- The record ids in a record's payload, by its kind. -/
def payloadIds (r : Record) : List RecordId :=
  match r.kind with
  | .request => ((P.decode RequestData r.data).bind RequestData.parentRequestId).toList
  | .action => ((P.decode ActionData r.data).map ActionData.requestId).toList
  | .response => ((P.decode ResponseData r.data).map ResponseData.requestId).toList
  | .result => ((P.decode ResultData r.data).map ResultData.actionId).toList
  | .refusal => ((P.decode RefusalData r.data).map RefusalData.targetId).toList
  | .retraction => ((P.decode RetractionData r.data).map RetractionData.targetId).toList
  | .usage => ((P.decode UsageData r.data).map fun d => [d.usedRecord, d.consumingRecord]).getD []
  | .plan => ((P.decode PlanData r.data).map fun d =>
      d.requestId :: d.tasks.filterMap PlanTask.resultRecordId).getD []
  | .candidate => ((P.decode CandidateData r.data).bind CandidateData.parent).toList
  | .evaluation =>
    if r.schema = P.schemaId schemaEvaluationV2 ∨ r.schema = P.schemaId schemaEvaluationAttested
    then ((P.decode EvaluationDataV2 r.data).map fun d => d.candidate :: d.requirements).getD []
    else ((P.decode EvaluationData r.data).map EvaluationData.candidate).toList
  | .selection => ((P.decode SelectionData r.data).map fun d =>
      d.considered ++ d.outcome.winners).getD []
  | .summary | .approval | .capability | .verdict | .requirement => []

/-- Every record id a record mentions. -/
def mentionedIds (r : Record) : List RecordId := r.refs.map Ref.target ++ P.payloadIds r

end Platform

/-- The state holds `id` as a capability or an approval. -/
def State.HoldsAuthority (s : State) (id : RecordId) : Prop :=
  (∃ key : CapabilityKey, s.activeCapabilities[key]? = some id) ∨
    (∃ hash : Hash256, s.validApprovals[hash]? = some id) ∨
    ∃ key : ClassApprovalKey, s.classApprovals[key]? = some id

/-- Two prior views agree on everything the check of `r` under `s` looks up. -/
structure SameLookups (P : Platform) (s : State) (p q : Prior) (r : Record) : Prop where
  mentioned : ∀ id ∈ P.mentionedIds r, p.find id = q.find id
  authority : ∀ id, s.HoldsAuthority id → p.find id = q.find id
  results : ∀ id t, p.find id = some t → t.kind = .result → id ∈ s.acceptedRecords →
    ∀ d, P.decode ResultData t.data = some d → p.find d.actionId = q.find d.actionId

section Congruence

variable {P : Platform} {rules : VerifierRules} {s : State} {p q : Prior} {r : Record}

theorem mem_refTargets {type : RefType} {refs : List Ref} {id : RecordId} :
    id ∈ refTargets type refs ↔ ∃ ref ∈ refs, ref.type = type ∧ ref.target = id := by
  simp [refTargets, and_assoc]

theorem SameLookups.ref (h : SameLookups P s p q r) {ref : Ref} (hr : ref ∈ r.refs) :
    p.find ref.target = q.find ref.target :=
  h.mentioned _ (List.mem_append_left _ (List.mem_map_of_mem hr))

theorem SameLookups.target (h : SameLookups P s p q r) {type : RefType} {id : RecordId}
    (hid : id ∈ refTargets type r.refs) : p.find id = q.find id := by
  obtain ⟨ref, hr, -, rfl⟩ := mem_refTargets.mp hid
  exact h.ref hr

theorem SameLookups.payload (h : SameLookups P s p q r) {id : RecordId}
    (hid : id ∈ P.payloadIds r) : p.find id = q.find id :=
  h.mentioned _ (List.mem_append_right _ hid)

theorem mem_refTargets_of_findReplaceRef {refs : List Ref} {id : RecordId}
    (h : findReplaceRef refs = some id) : id ∈ refTargets .replace refs := by
  obtain ⟨ref, href, rfl⟩ := Option.map_eq_some_iff.mp h
  exact mem_refTargets.mpr ⟨ref, List.mem_of_find?_eq_some href, by
    simpa using List.find?_some href, rfl⟩

theorem withActiveRequest_congr {id : RecordId} {k k' : Record → Option ReasonCode}
    (hfind : p.find id = q.find id) (hk : ∀ request, p.find id = some request → k request = k' request) :
    withActiveRequest p s r id k = withActiveRequest q s r id k' := by
  unfold withActiveRequest
  refine orElse_congr rfl fun _ => orReject_congr hfind fun request hreq => ?_
  exact orElse_congr rfl fun _ => hk request hreq

theorem usableApproval_congr (h : SameLookups P s p q r) {slot : Option RecordId}
    (hslot : ∀ id, slot = some id → s.HoldsAuthority id) :
    usableApproval p s slot = usableApproval q s slot := by
  cases slot with
  | none => rfl
  | some id => simp only [usableApproval, Option.bind_eq_bind, Option.bind_some, h.authority id (hslot id rfl)]

theorem checkClassApproval_congr (h : SameLookups P s p q r) (key : ClassApprovalKey)
    {next next' : Except ReasonCode RecordId} (hnext : next = next') :
    P.checkClassApproval p s r key next = P.checkClassApproval q s r key next' := by
  unfold Platform.checkClassApproval
  rw [usableApproval_congr h fun id hid => .inr (.inr ⟨key, hid⟩), hnext]

theorem checkApprovalForAction_congr (h : SameLookups P s p q r) (data : ActionData) :
    P.checkApprovalForAction p s r data = P.checkApprovalForAction q s r data := by
  unfold Platform.checkApprovalForAction
  cases P.actionHash r.author.id data with
  | none => rfl
  | some hash =>
    simp only
    rw [usableApproval_congr h fun id hid => .inr (.inl ⟨hash, hid⟩),
      checkClassApproval_congr h _ (checkClassApproval_congr h _ rfl)]

theorem resolveAuthority_congr (h : SameLookups P s p q r) (data : ActionData)
    (mode : CapabilityMode) :
    P.resolveAuthority p s r data mode = P.resolveAuthority q s r data mode := by
  unfold Platform.resolveAuthority
  rw [checkApprovalForAction_congr h]

theorem checkRequest_congr (h : SameLookups P s p q r) :
    P.checkRequest p s r = P.checkRequest q s r := by
  unfold Platform.checkRequest
  refine orReject_congr rfl fun data _ => orElse_congr ?_ fun _ => rfl
  exact findSome?_congr fun target ht => orReject_congr (h.target ht) fun _ _ => rfl

theorem checkAction_congr (h : SameLookups P s p q r) (hk : r.kind = .action) :
    P.checkAction p s r = P.checkAction q s r := by
  unfold Platform.checkAction
  refine orReject_congr rfl fun data hd => ?_
  refine withActiveRequest_congr (h.payload (by simp [Platform.payloadIds, hk, hd]))
    fun request _ => ?_
  refine orReject_congr rfl fun requestData _ => orElse_congr rfl fun _ => ?_
  refine orReject_congr rfl fun capId hcap => ?_
  refine orReject_congr (h.authority capId (.inl ⟨_, hcap⟩)) fun cap _ => orElse_congr rfl fun _ => ?_
  refine orReject_congr rfl fun capData _ => orElse_congr rfl fun _ => ?_
  rw [resolveAuthority_congr h]

theorem checkResult_congr (h : SameLookups P s p q r) (hk : r.kind = .result) :
    P.checkResult rules p s r = P.checkResult rules q s r := by
  unfold Platform.checkResult
  refine orReject_congr rfl fun data hd => orElse_congr rfl fun _ => orElse_congr rfl fun _ => ?_
  exact orReject_congr (h.payload (by simp [Platform.payloadIds, hk, hd])) fun _ _ => rfl

theorem checkRefusal_congr (h : SameLookups P s p q r) (hk : r.kind = .refusal) :
    P.checkRefusal p s r = P.checkRefusal q s r := by
  unfold Platform.checkRefusal
  refine orReject_congr rfl fun data hd => ?_
  exact orReject_congr (h.payload (by simp [Platform.payloadIds, hk, hd])) fun _ _ => rfl

theorem checkUsage_congr (h : SameLookups P s p q r) (hk : r.kind = .usage) :
    P.checkUsage p s r = P.checkUsage q s r := by
  unfold Platform.checkUsage
  refine orReject_congr rfl fun data hd => orElse_congr rfl fun _ => ?_
  refine orReject_congr (h.payload (by simp [Platform.payloadIds, hk, hd])) fun _ _ => ?_
  exact orReject_congr (h.payload (by simp [Platform.payloadIds, hk, hd])) fun _ _ => rfl

theorem checkResponse_congr (h : SameLookups P s p q r) (hk : r.kind = .response) :
    P.checkResponse p s r = P.checkResponse q s r := by
  unfold Platform.checkResponse
  refine orReject_congr rfl fun data hd => ?_
  exact withActiveRequest_congr (h.payload (by simp [Platform.payloadIds, hk, hd])) fun _ _ => rfl

theorem checkTaskResult_congr (h : SameLookups P s p q r) {requestId : RecordId} {task : PlanTask}
    (htask : ∀ id, task.resultRecordId = some id → p.find id = q.find id) :
    P.checkTaskResult p s r requestId task = P.checkTaskResult q s r requestId task := by
  unfold Platform.checkTaskResult
  cases hid : task.resultRecordId with
  | none => rfl
  | some id =>
    refine orElse_congr rfl fun _ => orReject_congr (htask id hid) fun result hfind => ?_
    refine orElse_congr rfl fun hok => orReject_congr rfl fun resultData hd => ?_
    -- the action behind an accepted result is looked up through that result's payload
    rw [rejectIf_eq_none] at hok
    push Not at hok
    exact orReject_congr (h.results id result hfind hok.1 hok.2.1 resultData hd) fun _ _ => rfl

theorem checkPlan_congr (h : SameLookups P s p q r) (hk : r.kind = .plan) :
    P.checkPlan p s r = P.checkPlan q s r := by
  unfold Platform.checkPlan
  refine orReject_congr rfl fun data hd => orElse_congr rfl fun _ => ?_
  refine withActiveRequest_congr (h.payload (by simp [Platform.payloadIds, hk, hd])) fun _ _ => ?_
  refine orElse_congr rfl fun _ => orElse_congr rfl fun _ => orElse_congr rfl fun _ => ?_
  refine orElse_congr (findSome?_congr fun task htask => ?_) fun _ => rfl
  refine checkTaskResult_congr h fun id hid => h.payload ?_
  have hmem : id ∈ data.tasks.filterMap PlanTask.resultRecordId :=
    List.mem_filterMap.mpr ⟨task, htask, hid⟩
  simp only [Platform.payloadIds, hk, hd, Option.map_some, Option.getD_some]
  exact List.mem_cons_of_mem _ hmem

theorem checkRetraction_congr (h : SameLookups P s p q r) (hk : r.kind = .retraction) :
    P.checkRetraction rules p s r = P.checkRetraction rules q s r := by
  unfold Platform.checkRetraction
  refine orReject_congr rfl fun data hd => orElse_congr rfl fun _ => ?_
  exact orReject_congr (h.payload (by simp [Platform.payloadIds, hk, hd])) fun _ _ => rfl

theorem resolveCandidate_congr {id : RecordId} (hid : p.find id = q.find id) :
    resolveCandidate p s r id = resolveCandidate q s r id := by
  unfold resolveCandidate
  rw [hid]

theorem mapM_find_congr {ids : List RecordId} (h : ∀ id ∈ ids, p.find id = q.find id) :
    ids.mapM p.find = ids.mapM q.find := by
  induction ids with
  | nil => rfl
  | cons id ids ih =>
    rw [List.mapM_cons, List.mapM_cons, h id List.mem_cons_self,
      ih fun i hi => h i (List.mem_cons_of_mem _ hi)]

theorem checkCandidate_congr (h : SameLookups P s p q r) (hk : r.kind = .candidate) :
    P.checkCandidate rules p s r = P.checkCandidate rules q s r := by
  unfold Platform.checkCandidate
  refine orReject_congr rfl fun data hd => orElse_congr rfl fun _ => orElse_congr rfl fun _ => ?_
  have hparent : (data.parent.any fun id => (resolveCandidate p s r id).isNone) =
      data.parent.any fun id => (resolveCandidate q s r id).isNone := by
    cases hp : data.parent with
    | none => rfl
    | some id =>
      have hid : id ∈ P.payloadIds r := by simp [Platform.payloadIds, hk, hd, hp]
      rw [Option.any_some, Option.any_some, resolveCandidate_congr (h.payload hid)]
  rw [hparent]
  refine orElse_congr rfl fun _ => ?_
  rw [mapM_find_congr fun id hid => h.target hid]

theorem checkEvaluation_congr (h : SameLookups P s p q r) (hk : r.kind = .evaluation) :
    P.checkEvaluation rules p s r = P.checkEvaluation rules q s r := by
  unfold Platform.checkEvaluation
  by_cases hv2 : r.schema = P.schemaId schemaEvaluationV2 ∨
      r.schema = P.schemaId schemaEvaluationAttested
  · rw [if_pos hv2, if_pos hv2]
    unfold Platform.checkEvaluationV2
    refine orReject_congr rfl fun data hd => orElse_congr rfl fun _ => ?_
    have hids : ∀ id ∈ data.candidate :: data.requirements, p.find id = q.find id := by
      intro id hid
      exact h.payload (by simpa [Platform.payloadIds, hk, hd, hv2] using hid)
    refine orReject_congr (resolveCandidate_congr (hids _ List.mem_cons_self)) fun _ _ => ?_
    refine orElse_congr rfl fun _ => orElse_congr rfl fun _ => orElse_congr rfl fun _ =>
      orElse_congr rfl fun _ => findSome?_congr fun rid hrid => ?_
    unfold Platform.checkEvaluatedRequirement
    rw [hids rid (List.mem_cons_of_mem _ hrid)]
  · rw [if_neg hv2, if_neg hv2]
    refine orReject_congr rfl fun data hd => ?_
    exact orReject_congr (resolveCandidate_congr (h.payload
      (by simp [Platform.payloadIds, hk, hd, hv2]))) fun _ _ => rfl

theorem usedEvaluations_congr (h : SameLookups P s p q r) :
    Platform.usedEvaluations p s r = Platform.usedEvaluations q s r := by
  unfold Platform.usedEvaluations
  rw [List.filterMap_congr fun id hid => h.target hid]

theorem resolveSelectionApproval_congr (h : SameLookups P s p q r) (data : SelectionData) :
    P.resolveSelectionApproval rules p s r data = P.resolveSelectionApproval rules q s r data := by
  unfold Platform.resolveSelectionApproval
  split
  · rfl
  · cases P.selectionApprovalSubjectHash r.author.id (findReplaceRef r.refs) data with
    | none => rfl
    | some hash =>
      rcases hv : s.validApprovals[hash]? with _ | id
      · simp only [hv]
      · simp only [hv, h.authority id (.inr (.inl ⟨hash, hv⟩))]

theorem checkOutcome_congr {data : SelectionData} {n : Nat}
    (h : ∀ id ∈ data.outcome.winners, p.find id = q.find id) :
    P.checkOutcome rules p data n = P.checkOutcome rules q data n := by
  unfold Platform.checkOutcome
  cases ho : data.outcome with
  | none => rfl
  | selected candidates =>
    refine orElse_congr rfl fun _ => orElse_congr ?_ fun _ => rfl
    split
    · refine findSome?_congr fun id hid => orReject_congr (h id ?_) fun _ _ => rfl
      rw [ExtTreeSet.mem_toList, idSetOf, mem_foldl_insert] at hid
      simpa [ho, SelectionOutcome.winners] using hid
    · rfl

theorem checkReaffirmation_congr (h : SameLookups P s p q r) (data : SelectionData) :
    P.checkReaffirmation rules p r data = P.checkReaffirmation rules q r data := by
  unfold Platform.checkReaffirmation
  cases hr : findReplaceRef r.refs with
  | none => rfl
  | some target => simp only [h.target (mem_refTargets_of_findReplaceRef hr)]

theorem checkSelection_congr (h : SameLookups P s p q r) (hk : r.kind = .selection) :
    P.checkSelection rules p s r = P.checkSelection rules q s r := by
  unfold Platform.checkSelection
  refine orReject_congr rfl fun data hd => ?_
  have hids : ∀ id ∈ data.considered ++ data.outcome.winners, p.find id = q.find id := by
    intro id hid
    exact h.payload (by simpa [Platform.payloadIds, hk, hd] using hid)
  simp only [usedEvaluations_congr h, resolveSelectionApproval_congr h, checkReaffirmation_congr h]
  refine orElse_congr rfl fun _ => orElse_congr rfl fun _ => orElse_congr ?_ fun _ =>
    orElse_congr rfl fun _ => orElse_congr ?_ fun _ => rfl
  · exact findSome?_congr fun id hid => orReject_congr
      (resolveCandidate_congr (hids id (List.mem_append_left _ hid))) fun _ _ => rfl
  · exact checkOutcome_congr fun id hid => hids id (List.mem_append_right _ hid)

theorem checkRequirement_congr (h : SameLookups P s p q r) :
    P.checkRequirement p s r = P.checkRequirement q s r := by
  unfold Platform.checkRequirement
  refine orReject_congr rfl fun data _ => orElse_congr rfl fun _ => orElse_congr rfl fun _ => ?_
  cases hc : refTargets .cause r.refs with
  | nil => rfl
  | cons id rest =>
    cases rest with
    | nil =>
      have hmem : id ∈ refTargets .cause r.refs := by simp [hc]
      exact orReject_congr (h.target hmem) fun _ _ => rfl
    | cons _ _ => rfl

theorem checkKindSpecific_congr (h : SameLookups P s p q r) :
    P.checkKindSpecific rules p s r = P.checkKindSpecific rules q s r := by
  unfold Platform.checkKindSpecific
  cases hk : r.kind
  case request => exact checkRequest_congr h
  case action => exact checkAction_congr h hk
  case response => exact checkResponse_congr h hk
  case result => exact checkResult_congr h hk
  case usage => exact checkUsage_congr h hk
  case refusal => exact checkRefusal_congr h hk
  case plan => exact checkPlan_congr h hk
  case retraction => exact checkRetraction_congr h hk
  case candidate => exact checkCandidate_congr h hk
  case evaluation => exact checkEvaluation_congr h hk
  case selection => exact checkSelection_congr h hk
  case requirement => exact checkRequirement_congr h
  case summary | approval | capability | verdict => rfl

theorem checkReplacement_congr (h : SameLookups P s p q r) :
    P.checkReplacement p s r = P.checkReplacement q s r := by
  unfold Platform.checkReplacement
  cases hc : refTargets .replace r.refs with
  | nil => rfl
  | cons id rest =>
    cases rest with
    | nil =>
      have hmem : id ∈ refTargets .replace r.refs := by simp [hc]
      exact orElse_congr rfl fun _ => orReject_congr (h.target hmem) fun _ _ => rfl
    | cons _ _ => rfl

theorem refEvidences_congr (h : SameLookups P s p q r) :
    Platform.refEvidences p.find s r.refs = Platform.refEvidences q.find s r.refs := by
  unfold Platform.refEvidences
  exact List.filterMap_congr fun ref href => by rw [h.ref href]

/-- **A verdict depends on the prior records only through these lookups.** -/
theorem checkSubject_congr (h : SameLookups P s p q r) :
    P.checkSubject rules p s r = P.checkSubject rules q s r := by
  unfold Platform.checkSubject Platform.checkEvidence
  simp only [checkReplacement_congr h, refEvidences_congr h, checkKindSpecific_congr h]
  refine orElse_congr rfl fun _ => orElse_congr rfl fun _ => orElse_congr rfl fun _ => ?_
  refine orReject_congr rfl fun _ _ => orElse_congr rfl fun _ => orElse_congr rfl fun _ => ?_
  refine orElse_congr rfl fun _ => orElse_congr (findSome?_congr fun ref href => ?_) fun _ => rfl
  exact orReject_congr (h.ref href) fun _ _ => rfl

end Congruence

end Bellbook
