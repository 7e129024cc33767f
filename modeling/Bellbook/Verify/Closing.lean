import Bellbook.Verify.Lifecycle

/-!
# Plans of a closed request

The state keeps one plan slot for each request, and every accepted Plan of the request takes it,
with or without a Replace ref. So a closing Response is only accepted when the *last* Plan of its
request is Completed or Abandoned (`closing_response_settled`); an earlier Running plan need not
have been replaced (`planLog_unreplaced`).
-/

namespace Bellbook

open Std

namespace Platform

variable (P : Platform)

/-- The record is a Plan of the request that is still running. -/
def RunningPlan (x : Record) (requestId : RecordId) : Prop :=
  ∃ d, P.Plans x requestId d ∧ d.status = .running

/-- The record is a Plan of the request that was completed or abandoned. -/
def EndedPlan (x : Record) (requestId : RecordId) : Prop :=
  ∃ d, P.Plans x requestId d ∧ (d.status = .completed ∨ d.status = .abandoned)

/-- The record is a Response that closes the request. -/
def ClosingResponse (x : Record) (requestId : RecordId) : Prop :=
  ∃ d, P.Answers x requestId d ∧ d.closesRequest = true

/-- The last of the request's plans was completed or abandoned. -/
def PlansSettled (A : List Record) (requestId : RecordId) : Prop :=
  ∃ B q C, A = B ++ q :: C ∧ P.EndedPlan q requestId ∧ ∀ x ∈ C, ∀ d, ¬P.Plans x requestId d

end Platform

/-- A Plan other than `p` replaces `p`. -/
def PlanReplaced (A : List Record) (p : Record) : Prop :=
  ∃ q ∈ A, q ≠ p ∧ q.kind = .plan ∧ findReplaceRef q.refs = some p.id

variable {P : Platform} {rules : VerifierRules} {L A : List Record} {s s' : State} {r : Record}

/-! ## The plan slot -/

/-- A record that neither plans nor closes the request leaves its slot alone. -/
theorem LifecycleFold.mem_activePlans (h : LifecycleFold P s r s') {id : RecordId}
    (hplan : ∀ d, ¬P.Plans r id d) (hcl : ¬P.Closes r id) :
    id ∈ s'.activePlans ↔ id ∈ s.activePlans := by
  have hne {id' : RecordId} (hcl' : P.Closes r id') : id' ≠ id := fun heq => hcl (heq ▸ hcl')
  cases h with
  | @refuse hk id' hcl' heq =>
    have hfield : s'.activePlans = s.activePlans.erase id' := congrArg Lifecycle.activePlans heq
    simp [hfield, ExtTreeMap.mem_erase, hne hcl']
  | @response id' d hr heq =>
    have hfield : s'.activePlans = if d.closesRequest then s.activePlans.erase id' else s.activePlans :=
      congrArg Lifecycle.activePlans heq
    rw [hfield]
    split
    · next hcloses =>
      simp [ExtTreeMap.mem_erase, hne (hr.closes_iff.mpr ⟨hcloses, rfl⟩)]
    · exact Iff.rfl
  | @plan id' d hr heq =>
    have hfield : s'.activePlans = s.planSlot r d := congrArg Lifecycle.activePlans heq
    have hother : d.requestId ≠ id := by
      rintro rfl
      exact hplan d ⟨hr.1, hr.2.1, rfl⟩
    rw [hfield, State.planSlot, State.foldPlan]
    simp only
    split
    · simp [ExtTreeMap.mem_erase, ExtTreeMap.mem_insert, hother]
    · simp [ExtTreeMap.mem_insert, hother]
  | request _ heq | action _ _ heq | closeAction _ heq | other _ _ _ heq =>
    have hfield : s'.activePlans = s.activePlans := congrArg Lifecycle.activePlans heq
    rw [hfield]

/-- A plan that frees its request's slot has ended. -/
theorem LifecycleFold.ended_of_free (h : LifecycleFold P s r s') {id : RecordId} {d : PlanData}
    (hr : P.Plans r id d) (hfree : id ∉ s'.activePlans) : P.EndedPlan r id := by
  obtain ⟨hk, hd, rfl⟩ := hr
  refine ⟨d, ⟨hk, hd, rfl⟩, ?_⟩
  by_contra hrunning
  apply hfree
  cases h with
  | @plan id' d' hr' heq =>
    have hfield : s'.activePlans = s.planSlot r d' := congrArg Lifecycle.activePlans heq
    obtain ⟨-, hd', -⟩ := hr'
    rw [hd] at hd'
    cases hd'
    rw [hfield, State.planSlot, State.foldPlan]
    simp [hrunning]
  | request hk' => simp [hk] at hk'
  | action hk' => simp [hk] at hk'
  | closeAction hcl => rcases hcl with ⟨hk', -⟩ | ⟨hk', -⟩ <;> simp [hk] at hk'
  | refuse hk' => simp [hk] at hk'
  | response hr' => exact absurd hr'.1 (by simp [hk])
  | other hk' => exact absurd hk hk'.2.2.2

/-- An active request with a free slot has no plan, or its last one has ended. -/
structure PlansInv (P : Platform) (A : List Record) (s : State) : Prop where
  requests : RequestsInv P A s
  settled : ∀ id ∈ s.activeRequests, id ∉ s.activePlans → ∀ p ∈ A, ∀ d, P.Plans p id d →
    P.PlansSettled A id

theorem PlansInv.step (h : PlansInv P A s) (hf : LifecycleFold P s r s')
    (hfresh : ∀ a ∈ A, a.id ≠ r.id) (hactive : ∀ id, P.Serves r id → id ∈ s.activeRequests) :
    PlansInv P (A ++ [r]) s' := by
  refine ⟨h.requests.step hf hfresh hactive, fun id hid hfree p hp d hd => ?_⟩
  by_cases hr : ∃ d, P.Plans r id d
  · -- `r` is the last plan
    obtain ⟨d', hd'⟩ := hr
    exact ⟨A, r, [], rfl, hf.ended_of_free hd' hfree, by simp⟩
  · push Not at hr
    have hpA : p ∈ A := by
      rcases List.mem_append.mp hp with hp | hp
      · exact hp
      · rw [List.mem_singleton.mp hp] at hd
        exact absurd hd (hr d)
    rcases hf.mem_activeRequests.mp hid with ⟨rfl, -⟩ | ⟨hid, hcl⟩
    · -- no earlier plan names a request that is accepted now
      obtain ⟨q, hq, hqid, -⟩ := h.requests.served p hpA _ (.inr (.inr (.inl ⟨d, hd⟩)))
      exact absurd hqid (hfresh q hq)
    · rw [hf.mem_activePlans hr hcl] at hfree
      obtain ⟨B, q, C, rfl, hq, hC⟩ := h.settled id hid hfree p hpA d hd
      refine ⟨B, q, C ++ [r], by simp, hq, ?_⟩
      rw [forall_mem_concat]
      exact ⟨hC, hr⟩

theorem Verified.plansInv (h : Verified P rules L s) : PlansInv P (P.accepted L) s := by
  apply Verified.accepted_induction _ _ _ h
  · intro A s t hinv
    exact ⟨⟨hinv.requests.active, hinv.requests.served⟩, hinv.settled⟩
  · exact ⟨by constructor <;> simp [State.empty], by simp⟩
  · intro L s r v s' hL hstep hc hf hinv
    exact hinv.step hf.lifecycle_accept (hL.run.accepted_fresh hstep)
      fun id hserves => serves_active hc hserves

/-- **A closing Response finds its request's plans settled**: before it, a Running plan of the
request is followed by one that was completed or abandoned, and that one is the last. -/
theorem closing_response_settled (h : P.Accepts rules L) (i : Nat) (hi : i < L.length)
    (ha : L[i] ∈ P.accepted L) (id : RecordId) (hcl : P.ClosingResponse L[i] id) :
    ∀ p ∈ P.accepted (L.take i), P.RunningPlan p id →
      ∃ B q C, P.accepted (L.take i) = B ++ q :: C ∧ p ∈ B ∧ P.EndedPlan q id ∧
        ∀ x ∈ C, ∀ d, ¬P.Plans x id d := by
  obtain ⟨s, hv⟩ := accepts_iff.mp h
  obtain ⟨t, ht, hc⟩ := hv.accepted_check hi ha
  obtain ⟨d, hans, hcloses⟩ := hcl
  intro p hp hrun
  obtain ⟨dp, hplan, hstatus⟩ := hrun
  obtain ⟨B, q, C, heq, hq, hC⟩ := ht.plansInv.settled id
    (serves_active hc (.inr (.inl ⟨d, hans⟩))) (checkResponse_closing hc hans hcloses).2 p hp dp hplan
  refine ⟨B, q, C, heq, ?_, hq, hC⟩
  rw [heq, List.mem_append, List.mem_cons] at hp
  rcases hp with hp | rfl | hp
  · exact hp
  · -- the last plan has ended, so it is not the Running one
    obtain ⟨dq, hplan', hended⟩ := hq
    have hsame : some dp = some dq := hplan.2.1 ▸ hplan'.2.1
    cases hsame
    rw [hstatus] at hended
    simp at hended
  · exact absurd hplan (hC p hp dp)

/-! ## A plan that is completed without being replaced -/

/-- A plan of the sample request with one task. -/
def samplePlan (id : RecordId) (time : Time) (task : TaskStatus) (status : PlanStatus) : Record :=
  { sampleSubject id time byAgent .plan schemaPlan
      (payload (⟨sampleRequest.id, [⟨"t", "", .generic, none, [], none, .toolSuccess, task, none, [],
        .abort⟩], status⟩ : PlanData))
      [⟨.cause, sampleRequest.id⟩] with evidence := .inferred }

def runningPlan : Record :=
  samplePlan 0xb5619e316bb553215a2f60b058119fdbd19dfe6e6e3a775bb663e2265568404d 3 .running .running

def completedPlan : Record :=
  samplePlan 0x8055741fbd86edcf661c9841a0614a8618d37fa25d098448610472f3f54d6364 5 .done .completed

def finalResponse : Record :=
  sampleSubject 0x9c4a94ff87b9469c31ca083d62b4fc1105d6cf27b0672b462526135f040ec644
    7 byAgent .response schemaResponse
    (payload (⟨sampleRequest.id, "", 0, true⟩ : ResponseData)) [⟨.cause, sampleRequest.id⟩]

/-- A Running plan, a Completed one without a Replace ref, and the closing Response. -/
def planLog : List Record :=
  sampleRound ++
  [runningPlan,
    acceptance 0x0498cf95a9c755753bb37d6ba1cf614f96efc68350e1b5581c40269dd3ea4866 runningPlan,
    completedPlan,
    acceptance 0x59e11ff96d1cb7727a52fae6208c1ad419ac2f738fe6cc2f85c847fcc100c32d completedPlan,
    finalResponse,
    acceptance 0x2371d10e3accaaf1af61bdede500c39b6778a43791b1112bcdeca9740a4085eb finalResponse]

def planHistory : reference.AcceptedLog sampleRules where
  val := planLog
  property := Platform.Accepts.extend (m := 2) sampleRound_accepts (by decide) (by decide +kernel)

theorem planLog_accepts : reference.Accepts sampleRules planLog := planHistory.property

theorem accepted_planLog : reference.accepted planLog =
    [sampleRequest, runningPlan, completedPlan, finalResponse] := by decide +kernel

theorem accepted_planLog_take : reference.accepted (planLog.take 6) =
    [sampleRequest, runningPlan, completedPlan] := by decide +kernel

theorem finalResponse_closes : reference.ClosingResponse finalResponse sampleRequest.id := by
  refine ⟨⟨sampleRequest.id, "", 0, true⟩, ⟨rfl, ?_, rfl⟩, rfl⟩
  simp only [finalResponse, sampleSubject]
  decide +kernel

theorem runningPlan_running : reference.RunningPlan runningPlan sampleRequest.id := by
  refine ⟨⟨sampleRequest.id, [⟨"t", "", .generic, none, [], none, .toolSuccess, .running, none, [],
    .abort⟩], .running⟩, ⟨rfl, ?_, rfl⟩, rfl⟩
  simp only [runningPlan, samplePlan, sampleSubject]
  decide +kernel

/-- **A Running plan need not be replaced** before its request is closed. -/
theorem planLog_unreplaced : reference.Accepts sampleRules planLog ∧
    finalResponse ∈ reference.accepted planLog ∧
    reference.ClosingResponse finalResponse sampleRequest.id ∧
    runningPlan ∈ reference.accepted (planLog.take 6) ∧
    reference.RunningPlan runningPlan sampleRequest.id ∧
    ¬PlanReplaced (reference.accepted (planLog.take 6)) runningPlan ∧
    ((reference.buildStateUnchecked (planLog.take 6)).any
      fun s => runningPlan.id ∉ s.replacedRecords) = true := by
  refine ⟨planLog_accepts, ?_, finalResponse_closes, ?_, runningPlan_running, ?_, ?_⟩
  · rw [accepted_planLog]
    simp
  · rw [accepted_planLog_take]
    simp
  · rintro ⟨q, hq, -, -, href⟩
    rw [accepted_planLog_take] at hq
    have hnone : ∀ x ∈ [sampleRequest, runningPlan, completedPlan], findReplaceRef x.refs = none := by
      decide
    rw [hnone q hq] at href
    cases href
  · decide +kernel

theorem planLog_settled : planLog[6] = finalResponse ∧
    ∃ B q C, reference.accepted (planLog.take 6) = B ++ q :: C ∧ runningPlan ∈ B ∧
      reference.EndedPlan q sampleRequest.id ∧
      ∀ x ∈ C, ∀ d, ¬reference.Plans x sampleRequest.id d := by
  have hacc : planLog[6] ∈ reference.accepted planLog := by
    rw [accepted_planLog]
    exact .tail _ (.tail _ (.tail _ (.head _)))
  have hin : runningPlan ∈ reference.accepted (planLog.take 6) := by
    rw [accepted_planLog_take]
    simp
  exact ⟨rfl, closing_response_settled planLog_accepts 6 (by decide) hacc sampleRequest.id
    finalResponse_closes runningPlan hin runningPlan_running⟩

end Bellbook
