import Bellbook.Verify.Acyclic
import Bellbook.Verify.Lifecycle

/-!
# Work and the request it is done for

Every record of the activity kinds names the record it is done for: an Action, a Response, a Plan and
a Requirement their Request, a Result its Action, a Refusal its target, a Usage the record that
consumed, a delegated Request its parent.

* One step stays in the thread and goes back in time to an accepted record (`Verified.worksFor_step`).
* So every piece of work leads to exactly one root Request, in its own thread (`work_traced`).
* A plan's proofs are real work for the plan's own request (`plan_results_real`).
-/

namespace Bellbook

open Std

namespace Platform

variable (P : Platform)

/-- The id of the record that `r` is done for. -/
def worksFor (r : Record) : Option RecordId :=
  match r.kind with
  | .request => (P.decode RequestData r.data).bind RequestData.parentRequestId
  | .action => (P.decode ActionData r.data).map ActionData.requestId
  | .result => (P.decode ResultData r.data).map ResultData.actionId
  | .refusal => (P.decode RefusalData r.data).map RefusalData.targetId
  | .usage => (P.decode UsageData r.data).map UsageData.consumingRecord
  | .response => (P.decode ResponseData r.data).map ResponseData.requestId
  | .plan => (P.decode PlanData r.data).map PlanData.requestId
  | .requirement => r.firstCause
  | _ => none

/-- The kinds that are done for something. -/
def activity : Kind → Bool
  | .request | .action | .result | .refusal | .usage | .response | .plan | .requirement => true
  | _ => false

/-- `a` is done for `b`, both accepted. -/
def WorksFor (L : List Record) (a b : Record) : Prop :=
  a ∈ P.accepted L ∧ b ∈ P.accepted L ∧ P.worksFor a = some b.id

/-- A Request of no parent. -/
def RootRequest (q : Record) : Prop := q.kind = .request ∧ P.worksFor q = none

end Platform

variable {P : Platform} {rules : VerifierRules} {L : List Record} {s t : State} {r : Record}

/-! ## One step -/

/-- What a record is done for, as the checks find it. -/
structure WorkFound (prior : Prior) (s : State) (r : Record) (id : RecordId) (y : Record) : Prop where
  find : prior.find id = some y
  accepted : id ∈ s.acceptedRecords
  thread : y.thread = r.thread
  kind : y.kind = .request ∨ y.kind = .action ∨ y.kind = .result ∨ y.kind = .refusal

/-- An id that is an active request or an open action is one of an accepted record of that kind. -/
structure LiveTargets (s : State) (prior : Prior) : Prop where
  request : ∀ id ∈ s.activeRequests, id ∈ s.acceptedRecords ∧ ∀ y, prior.find id = some y → y.kind = .request
  action : ∀ id ∈ s.openActions, id ∈ s.acceptedRecords ∧ ∀ y, prior.find id = some y → y.kind = .action

theorem Verified.liveTargets (h : Verified P rules L s) (hs : P.HashSound L) : LiveTargets s (priorView L) := by
  have hkind {a y : Record} (ha : a ∈ P.accepted L) (hfind : (priorView L).find a.id = some y) : y = a := by
    obtain ⟨hmem, hid⟩ := find_mem hfind
    have hacc := h.run.mem_acceptedRecords.mpr ⟨a, ha, hid.symm⟩
    exact h.run.eq_of_accepted_id (h.accepted_of_mem hs hmem hacc) ha hid
  constructor
  · intro id hid
    obtain ⟨⟨q, hq, rfl, hk⟩, -⟩ := h.authorityInv.request id hid
    exact ⟨h.run.mem_acceptedRecords.mpr ⟨q, hq, rfl⟩, fun y hfind => hkind hq hfind ▸ hk⟩
  · intro id hid
    obtain ⟨⟨a, ha, rfl, hk⟩, -⟩ := (h.actionsInv.isOpen id).mp hid
    exact ⟨h.run.mem_acceptedRecords.mpr ⟨a, ha, rfl⟩, fun y hfind => hkind ha hfind ▸ hk⟩

theorem firstCause_eq_head? : r.firstCause = (refTargets .cause r.refs).head? := by
  rw [Record.firstCause, refTargets, List.head?_map, List.head?_filter]

section Found

variable {prior : Prior} {id : RecordId} (hlive : LiveTargets s prior)
  (hc : P.checkSubject rules prior s r = none) (hw : P.worksFor r = some id)
include hlive

/-- The active request that three kinds ask for. -/
theorem workFound_activeRequest {k : Record → Option ReasonCode}
    (h : withActiveRequest prior s r id k = none) : ∃ y, WorkFound prior s r id y := by
  simp only [withActiveRequest, orElse_none_iff, rejectIf_eq_none, not_not, orReject_eq_none, not_or] at h
  obtain ⟨hactive, y, hfind, ⟨hthread, -⟩, -⟩ := h
  obtain ⟨hacc, hkind⟩ := hlive.request id hactive
  exact ⟨y, hfind, hacc, hthread, .inl (hkind y hfind)⟩

include hc hw

/-- **What a record is done for** is an accepted activity of its thread. -/
theorem workFound : ∃ y, WorkFound prior s r id y := by
  have hkind := (checkSubject_passes hc).kind
  cases hk : r.kind with
  | request =>
    simp only [Platform.checkKindSpecific, hk, Platform.checkRequest, orReject_eq_none, orElse_none_iff,
      rejectIf_eq_none, List.findSome?_eq_none_iff, not_not] at hkind
    obtain ⟨d, hd, hcauses, hparent⟩ := hkind
    simp only [Platform.worksFor, hk, hd, Option.bind_some] at hw
    -- the declared parent is the one Cause
    have htargets : refTargets .cause r.refs = [id] := by simpa [parentageInvalid, hw] using hparent
    obtain ⟨y, hfind, hyk, hthread, hacc⟩ := hcauses id (by simp [htargets])
    exact ⟨y, hfind, hacc, hthread, .inl hyk⟩
  | action =>
    simp only [Platform.checkKindSpecific, hk, Platform.checkAction, orReject_eq_none] at hkind
    obtain ⟨d, hd, hactive⟩ := hkind
    simp only [Platform.worksFor, hk, hd, Option.map_some, Option.some.injEq] at hw
    exact workFound_activeRequest hlive (hw ▸ hactive)
  | result =>
    simp only [Platform.checkKindSpecific, hk, Platform.checkResult, orReject_eq_none, orElse_none_iff,
      rejectIf_eq_none, not_not, not_or] at hkind
    obtain ⟨d, hd, -, hopen, y, hfind, ⟨hthread, -⟩, -⟩ := hkind
    simp only [Platform.worksFor, hk, hd, Option.map_some, Option.some.injEq] at hw
    subst hw
    obtain ⟨hacc, hyk⟩ := hlive.action _ hopen
    exact ⟨y, hfind, hacc, hthread, .inr (.inl (hyk y hfind))⟩
  | refusal =>
    simp only [Platform.checkKindSpecific, hk, Platform.checkRefusal, orReject_eq_none, orElse_none_iff]
      at hkind
    obtain ⟨d, hd, y, hfind, htarget, -⟩ := hkind
    simp only [Platform.worksFor, hk, hd, Option.map_some, Option.some.injEq] at hw
    subst hw
    cases hkd : d.targetKind with
    | action =>
      simp only [hkd, orElse_none_iff, rejectIf_eq_none, not_not, not_or] at htarget
      obtain ⟨hyk, hopen, hthread, -⟩ := htarget
      exact ⟨y, hfind, (hlive.action _ hopen).1, hthread, .inr (.inl hyk)⟩
    | request =>
      simp only [hkd, orElse_none_iff, rejectIf_eq_none, not_not, not_or] at htarget
      obtain ⟨hyk, hactive, hthread, -⟩ := htarget
      exact ⟨y, hfind, (hlive.request _ hactive).1, hthread, .inl hyk⟩
    | verifiedEffect =>
      simp only [hkd, orElse_none_iff, rejectIf_eq_none, not_not, not_or] at htarget
      obtain ⟨⟨hyk, -⟩, hacc, hthread, -⟩ := htarget
      exact ⟨y, hfind, hacc, hthread, .inr (.inr (.inl hyk))⟩
  | usage =>
    simp only [Platform.checkKindSpecific, hk, Platform.checkUsage, orReject_eq_none, orElse_none_iff,
      rejectIf_eq_none, not_not] at hkind
    obtain ⟨d, hd, -, -, -, y, hfind, hacc, hyk, hthread, -⟩ := hkind
    simp only [Platform.worksFor, hk, hd, Option.map_some, Option.some.injEq] at hw
    subst hw
    exact ⟨y, hfind, hacc, hthread, by tauto⟩
  | response =>
    simp only [Platform.checkKindSpecific, hk, Platform.checkResponse, orReject_eq_none] at hkind
    obtain ⟨d, hd, hactive⟩ := hkind
    simp only [Platform.worksFor, hk, hd, Option.map_some, Option.some.injEq] at hw
    exact workFound_activeRequest hlive (hw ▸ hactive)
  | plan =>
    simp only [Platform.checkKindSpecific, hk, Platform.checkPlan, orReject_eq_none, orElse_none_iff]
      at hkind
    obtain ⟨d, hd, -, hactive⟩ := hkind
    simp only [Platform.worksFor, hk, hd, Option.map_some, Option.some.injEq] at hw
    exact workFound_activeRequest hlive (hw ▸ hactive)
  | requirement =>
    simp only [Platform.checkKindSpecific, hk, Platform.checkRequirement, orReject_eq_none,
      orElse_none_iff] at hkind
    obtain ⟨d, -, -, -, hcause⟩ := hkind
    split at hcause
    · next target htargets =>
      simp only [orReject_eq_none, orElse_none_iff, rejectIf_eq_none, not_or, not_not] at hcause
      obtain ⟨y, hfind, ⟨hyk, hacc, hthread, -⟩, -⟩ := hcause
      have hfirst : r.firstCause = some target := by rw [firstCause_eq_head?, htargets]; rfl
      simp only [Platform.worksFor, hk, hfirst, Option.some.injEq] at hw
      subst hw
      exact ⟨y, hfind, hacc, hthread, .inl hyk⟩
    · cases hcause
  | capability => simp [Platform.worksFor, hk] at hw
  | approval => simp [Platform.worksFor, hk] at hw
  | summary => simp [Platform.worksFor, hk] at hw
  | retraction => simp [Platform.worksFor, hk] at hw
  | verdict => simp [Platform.worksFor, hk] at hw
  | candidate => simp [Platform.worksFor, hk] at hw
  | evaluation => simp [Platform.worksFor, hk] at hw
  | selection => simp [Platform.worksFor, hk] at hw

end Found

section Trace

variable (h : Verified P rules L s) (hs : P.HashSound L)
include h hs

/-- What the checks found at position `i`, in terms of the log. -/
theorem Verified.work_at {i : Nat} (hi : i < L.length) (ht : Verified P rules (L.take i) t) {id : RecordId}
    {y : Record} (hfound : WorkFound (priorView (L.take i)) t L[i] id y) :
    y ∈ P.accepted L ∧ y.id = id ∧ y.time.toNat < L[i].time.toNat := by
  apply h.found_before hs hi ht hfound.find
  obtain ⟨-, hid⟩ := find_mem hfound.find
  rw [hid]
  exact hfound.accepted

/-- **One step.** What an accepted record is done for is accepted, earlier, of its thread, and itself an
activity that is done for something or a root Request. -/
theorem Verified.worksFor_step {x : Record} (hx : x ∈ P.accepted L) {id : RecordId}
    (hw : P.worksFor x = some id) : ∃ y, P.WorksFor L x y ∧ y.thread = x.thread ∧
      y.time.toNat < x.time.toNat ∧
      (y.kind = .request ∨ y.kind = .action ∨ y.kind = .result ∨ y.kind = .refusal) := by
  obtain ⟨i, hi, rfl⟩ := List.mem_iff_getElem.mp (mem_of_mem_accepted hx)
  obtain ⟨t, ht, hc⟩ := h.accepted_at hs hi hx
  obtain ⟨y, hfound⟩ := workFound (ht.liveTargets (hs.mono (List.take_subset _ _))) hc hw
  obtain ⟨hy, rfl, hlt⟩ := h.work_at hs hi ht hfound
  exact ⟨y, ⟨hx, hy, hw⟩, hfound.thread, hlt, hfound.kind⟩

omit hs in
theorem Verified.worksFor_unique {x y z : Record} (hy : P.WorksFor L x y) (hz : P.WorksFor L x z) : y = z := by
  apply h.run.eq_of_accepted_id hy.2.1 hz.2.1
  exact Option.some.inj (hy.2.2.symm.trans hz.2.2)

/-- An accepted activity other than a Request is done for something. -/
theorem Verified.worksFor_isSome {x : Record} (hx : x ∈ P.accepted L) (hk : Platform.activity x.kind = true)
    (hq : x.kind ≠ .request) : ∃ id, P.worksFor x = some id := by
  obtain ⟨i, hi, rfl⟩ := List.mem_iff_getElem.mp (mem_of_mem_accepted hx)
  obtain ⟨t, ht, hc⟩ := h.accepted_at hs hi hx
  have hkind := (checkSubject_passes hc).kind
  cases hr : L[i].kind with
  | request => exact absurd hr hq
  | action =>
    simp only [Platform.checkKindSpecific, hr, Platform.checkAction, orReject_eq_none] at hkind
    obtain ⟨d, hd, -⟩ := hkind
    exact ⟨d.requestId, by simp [Platform.worksFor, hr, hd]⟩
  | result =>
    simp only [Platform.checkKindSpecific, hr, Platform.checkResult, orReject_eq_none] at hkind
    obtain ⟨d, hd, -⟩ := hkind
    exact ⟨d.actionId, by simp [Platform.worksFor, hr, hd]⟩
  | refusal =>
    simp only [Platform.checkKindSpecific, hr, Platform.checkRefusal, orReject_eq_none] at hkind
    obtain ⟨d, hd, -⟩ := hkind
    exact ⟨d.targetId, by simp [Platform.worksFor, hr, hd]⟩
  | usage =>
    simp only [Platform.checkKindSpecific, hr, Platform.checkUsage, orReject_eq_none] at hkind
    obtain ⟨d, hd, -⟩ := hkind
    exact ⟨d.consumingRecord, by simp [Platform.worksFor, hr, hd]⟩
  | response =>
    simp only [Platform.checkKindSpecific, hr, Platform.checkResponse, orReject_eq_none] at hkind
    obtain ⟨d, hd, -⟩ := hkind
    exact ⟨d.requestId, by simp [Platform.worksFor, hr, hd]⟩
  | plan =>
    simp only [Platform.checkKindSpecific, hr, Platform.checkPlan, orReject_eq_none] at hkind
    obtain ⟨d, hd, -⟩ := hkind
    exact ⟨d.requestId, by simp [Platform.worksFor, hr, hd]⟩
  | requirement =>
    simp only [Platform.checkKindSpecific, hr, Platform.checkRequirement, orReject_eq_none,
      orElse_none_iff] at hkind
    obtain ⟨d, -, -, -, hcause⟩ := hkind
    split at hcause
    · next target htargets => exact ⟨target, by simp [Platform.worksFor, hr, firstCause_eq_head?, htargets]⟩
    · cases hcause
  | capability => simp [Platform.activity, hr] at hk
  | approval => simp [Platform.activity, hr] at hk
  | summary => simp [Platform.activity, hr] at hk
  | retraction => simp [Platform.activity, hr] at hk
  | verdict => simp [Platform.activity, hr] at hk
  | candidate => simp [Platform.activity, hr] at hk
  | evaluation => simp [Platform.activity, hr] at hk
  | selection => simp [Platform.activity, hr] at hk

/-- Every accepted activity leads to a root Request. -/
theorem Verified.exists_root {x : Record} (hx : x ∈ P.accepted L) (hk : Platform.activity x.kind = true) :
    ∃ q, P.RootRequest q ∧ q ∈ P.accepted L ∧ Relation.ReflTransGen (P.WorksFor L) x q := by
  induction hn : x.time.toNat using Nat.strong_induction_on generalizing x with
  | _ n ih =>
    subst hn
    cases hw : P.worksFor x with
    | none =>
      have hq : x.kind = .request := by
        by_contra hq
        obtain ⟨id, hid⟩ := h.worksFor_isSome hs hx hk hq
        rw [hw] at hid
        cases hid
      exact ⟨x, ⟨hq, hw⟩, hx, .refl⟩
    | some id =>
      obtain ⟨y, hxy, -, hlt, hyk⟩ := h.worksFor_step hs hx hw
      have hyact : Platform.activity y.kind = true := by
        rcases hyk with hyk | hyk | hyk | hyk <;> rw [hyk] <;> rfl
      obtain ⟨q, hroot, hq, hpath⟩ := ih _ hlt hxy.2.1 hyact rfl
      exact ⟨q, hroot, hq, .head hxy hpath⟩

/-- A trace stays in its thread and goes back in time. -/
theorem Verified.trace_back {x q : Record} (hpath : Relation.ReflTransGen (P.WorksFor L) x q) :
    q.thread = x.thread ∧ q.time ≤ x.time := by
  induction hpath with
  | refl => exact ⟨rfl, UInt64.le_refl _⟩
  | tail _ hyz ih =>
    obtain ⟨z, hz, hthread, hlt, -⟩ := h.worksFor_step hs hyz.1 hyz.2.2
    obtain rfl := h.worksFor_unique hyz hz
    refine ⟨hthread.trans ih.1, UInt64.le_trans ?_ ih.2⟩
    rw [UInt64.le_iff_toNat_le]
    omega

end Trace

/-! ## A log with work in it -/

/-- The sample rules with an executor. -/
def workRules : VerifierRules :=
  { sampleRules with authorRoles := sampleRules.authorRoles.insert "tool" .executor }

def freeCapability : Record :=
  sampleSubject 0x9a102d6bfa2792668f6443313d757c4f44d440222d961d6223fae42bf70f4d3f
    3 byUser .capability schemaCapability (payload { sampleCapabilityData with mode := .auto }) []

def freeAction : Record :=
  sampleSubject 0x87d3a9f0f11a104ada5171166ed2dcca02561d7b3399dcf42f25191103205303
    5 byAgent .action schemaAction (payload sampleActionData)
    [⟨.cause, sampleRequest.id⟩, ⟨.require, freeCapability.id⟩]

def freeResult : Record :=
  sampleSubject 0x99d934dcd12b4817a174b4da6d206e9ba2306d2154dbd204eeead40a684563d9
    7 ⟨"tool", .executor, none⟩ .result schemaResult
    (payload (⟨freeAction.id, .success, "", none⟩ : ResultData)) [⟨.cause, freeAction.id⟩]

/-- The capability was of use for the result. -/
def capabilityUsage : Record :=
  sampleSubject 0xa7a6403a6f04701cf6b189889941beb3d596cc61925ba49d2651a45153e65c15
    9 byAgent .usage schemaUsage
    (payload (⟨"agent", freeCapability.id, freeResult.id, "r", .done⟩ : UsageData)) [⟨.use, freeCapability.id⟩]

def provenPlanData : PlanData where
  requestId := sampleRequest.id
  tasks := [⟨"t", "", .generic, none, [], none, .toolSuccess, .done, some freeResult.id, [], .abort⟩]
  status := .completed

def provenPlan : Record :=
  { sampleSubject 0x8ba1fc5db4eaae4b462843bec7f55b18e2cba55bea944a9860ce918894fce17d
      11 byAgent .plan schemaPlan (payload provenPlanData) [⟨.cause, sampleRequest.id⟩] with
    evidence := .inferred }

/-- A request with an action, its result, the use of its capability and a plan that cites it. -/
def workLog : List Record :=
  sampleRound ++
  [freeCapability,
    acceptance 0x7b389fba8c937d535fdba833ca4bbada7efa502fde6bb316859e8cc6ecd1abc5 freeCapability,
    freeAction,
    acceptance 0x4dd1c8e21f7d57460e691e8ec50368cd29cae973d88a38e1c947cde5e3cebf2b freeAction,
    freeResult,
    acceptance 0xdffc5c849c3562e42eea4f04bbeb173caa71a8ad933bd50b2d4a4056ee5cc15d freeResult,
    capabilityUsage,
    acceptance 0x5fdd521d2b41683cc47245da94f13e22b11a1d1b7cca99e65865c0479d6b3d6e capabilityUsage,
    provenPlan,
    acceptance 0xde67588c6d369260bd48a38626c15464f8fa40376c62ed2c7f5fc190a85e4443 provenPlan]

/-- The Request and the Capability of the work, replayed. -/
def capabilityHistory : reference.AcceptedLog workRules where
  val := workLog.take 4
  property := by decide +kernel

/-- The work up to its Result, replayed. -/
def resultHistory : reference.AcceptedLog workRules where
  val := workLog.take 8
  property := Platform.Accepts.extend (m := 4) capabilityHistory.property (by decide) (by decide +kernel)

def workHistory : reference.AcceptedLog workRules where
  val := workLog
  property := resultHistory.property.extend (by decide) (by decide +kernel)

theorem workLog_accepts : reference.Accepts workRules workLog := workHistory.property

theorem workLog_hashSound : reference.HashSound workLog := by
  obtain ⟨s, hv⟩ := accepts_iff.mp workLog_accepts
  refine hashSound_of_nodup hv.ids ?_ (by decide +kernel)
  rw [map_schemaId]
  decide +kernel

theorem accepted_workLog : reference.accepted workLog =
    [sampleRequest, freeCapability, freeAction, freeResult, capabilityUsage, provenPlan] := by decide +kernel

/-! ## Traces of whole logs -/

/-- **Work is traced.** Every accepted Request, Action, Result, Refusal, Usage, Response, Plan and
Requirement leads, from each record to the one it is done for, to exactly one root Request, which was
accepted before it in the same thread. -/
theorem work_traced (hs : P.HashSound L) (h : P.Accepts rules L) {x : Record} (hx : x ∈ P.accepted L)
    (hk : Platform.activity x.kind = true) :
    (∃! q, P.RootRequest q ∧ Relation.ReflTransGen (P.WorksFor L) x q) ∧
      ∀ q, Relation.ReflTransGen (P.WorksFor L) x q →
        q ∈ P.accepted L ∧ q.thread = x.thread ∧ q.time ≤ x.time := by
  obtain ⟨s, hv⟩ := accepts_iff.mp h
  have hin {q : Record} (hpath : Relation.ReflTransGen (P.WorksFor L) x q) : q ∈ P.accepted L := by
    rcases hpath.cases_tail with rfl | ⟨y, -, hyq⟩
    · exact hx
    · exact hyq.2.1
  constructor
  · obtain ⟨q, hroot, -, hpath⟩ := hv.exists_root hs hx hk
    refine ⟨q, ⟨hroot, hpath⟩, ?_⟩
    rintro q' ⟨hroot', hpath'⟩
    -- two traces of one record run along each other, and a root goes no further
    have hstop {a b : Record} (ha : P.RootRequest a) (hab : Relation.ReflTransGen (P.WorksFor L) a b) :
        a = b := by
      rcases hab.cases_head with rfl | ⟨c, hac, -⟩
      · rfl
      · cases ha.2.symm.trans hac.2.2
    have hunique : Relator.RightUnique (P.WorksFor L) := fun _ _ _ => hv.worksFor_unique
    rcases hpath.total_of_right_unique hunique hpath' with hqq | hqq
    · exact (hstop hroot hqq).symm
    · exact hstop hroot' hqq
  · intro q hpath
    exact ⟨hin hpath, hv.trace_back hs hpath⟩

/-- The usage report leads over the result and its action to the sample request. -/
theorem capabilityUsage_traced : (∃! q, reference.RootRequest q ∧
    Relation.ReflTransGen (reference.WorksFor workLog) capabilityUsage q) ∧
      reference.RootRequest sampleRequest ∧
      Relation.ReflTransGen (reference.WorksFor workLog) capabilityUsage sampleRequest := by
  have hin : capabilityUsage ∈ reference.accepted workLog := by
    rw [accepted_workLog]
    simp
  have hstep : ∀ p ∈ [(capabilityUsage, freeResult), (freeResult, freeAction), (freeAction, sampleRequest)],
      p.1 ∈ [sampleRequest, freeCapability, freeAction, freeResult, capabilityUsage, provenPlan] ∧
      p.2 ∈ [sampleRequest, freeCapability, freeAction, freeResult, capabilityUsage, provenPlan] ∧
      reference.worksFor p.1 = some p.2.id := by
    decide +kernel
  have hworks : ∀ p ∈ [(capabilityUsage, freeResult), (freeResult, freeAction), (freeAction, sampleRequest)],
      reference.WorksFor workLog p.1 p.2 := by
    intro p hp
    rw [Platform.WorksFor, accepted_workLog]
    exact hstep p hp
  refine ⟨(work_traced workLog_hashSound workLog_accepts hin rfl).1, ⟨rfl, by decide +kernel⟩, ?_⟩
  have husage : reference.WorksFor workLog capabilityUsage freeResult := hworks (_, _) (.head _)
  have hresult : reference.WorksFor workLog freeResult freeAction := hworks (_, _) (.tail _ (.head _))
  have haction : reference.WorksFor workLog freeAction sampleRequest :=
    hworks (_, _) (.tail _ (.tail _ (.head _)))
  exact .head husage (.head hresult (.single haction))

/-! ## Proofs of a plan -/

namespace Platform

variable (P : Platform)

/-- A task cites `resultId`: an accepted Result, before the plan and in its thread, of an accepted Action
of the plan's request. -/
structure ProvenBy (L : List Record) (p : Record) (requestId resultId : RecordId) (x a : Record) : Prop where
  id : x.id = resultId
  kind : x.kind = .result
  result : P.WorksFor L x a
  action : P.ActsFor a requestId
  thread : x.thread = p.thread
  before : a.time < x.time ∧ x.time < p.time

/-- What an accepted Plan says about its tasks is so. -/
structure PlanHolds (L : List Record) (p : Record) (d : PlanData) : Prop where
  cited : ∀ t ∈ d.tasks, ∀ id, t.resultRecordId = some id → (t.status = .done ∨ t.status = .failed) ∧
    ∃ x a, P.ProvenBy L p d.requestId id x a
  completed : d.status = .completed → ∀ t ∈ d.tasks, t.status = .done
  abandoned : d.status = .abandoned → (∀ t ∈ d.tasks, taskTerminal t = true) ∧
    ∃ t ∈ d.tasks, t.status = .failed ∨ t.status = .skipped
  schedulable : ¬∃ id, Relation.TransGen (DependsOn d.tasks) id id

end Platform

/-- The task check, as the log sees it. -/
theorem Verified.provenBy (h : Verified P rules L s) (hs : P.HashSound L) {i : Nat} (hi : i < L.length)
    (ht : Verified P rules (L.take i) t) {requestId id : RecordId} {task : PlanTask}
    (hc : P.checkTaskResult (priorView (L.take i)) t L[i] requestId task = none)
    (hid : task.resultRecordId = some id) : (task.status = .done ∨ task.status = .failed) ∧
      ∃ x a, P.ProvenBy L L[i] requestId id x a := by
  simp only [Platform.checkTaskResult, hid, orElse_none_iff, rejectIf_eq_none, orReject_eq_none, not_or,
    not_not] at hc
  obtain ⟨hstatus, x, hfind, ⟨hk, hacc, hthread, -⟩, d, hd, found, hfound, da, hda, hrequest⟩ := hc
  have hxacc : x.id ∈ t.acceptedRecords := (find_mem hfind).2 ▸ hacc
  obtain ⟨hx, hxid, hlt⟩ := h.found_before hs hi ht hfind hxacc
  have hw : P.worksFor x = some d.actionId := by simp [Platform.worksFor, hk, hd]
  obtain ⟨a, hxa, -, halt, -⟩ := h.worksFor_step hs hx hw
  have hid' : d.actionId = a.id := Option.some.inj (hw.symm.trans hxa.2.2)
  obtain ⟨b, hb, hbid, hbk⟩ := h.actionsInv.closed x hx d.actionId (.inl ⟨hk, d, hd, rfl⟩)
  obtain rfl := h.run.eq_of_accepted_id hb hxa.2.1 (hbid.trans hid')
  -- the record found under the action id is the accepted one
  obtain ⟨hmem, hfid⟩ := find_mem hfound
  have hfa : found ∈ P.accepted L := by
    apply h.accepted_of_mem hs (List.mem_of_mem_take hmem)
    rw [hfid, hid']
    exact h.run.mem_acceptedRecords.mpr ⟨b, hb, rfl⟩
  obtain rfl := h.run.eq_of_accepted_id hfa hb (hfid.trans hid')
  refine ⟨by tauto, x, found, hxid, hk, hxa, ⟨hbk, da, hda, hrequest⟩, hthread, ?_⟩
  rw [UInt64.lt_iff_toNat_lt, UInt64.lt_iff_toNat_lt]
  exact ⟨halt, hlt⟩

/-- **A plan's proofs are real.** In an accepted log, a result cited by a task of an accepted Plan is an
accepted Result, before the plan and in its thread, of an accepted Action for the plan's own request, and
the task is done or failed; a Completed plan has only done tasks, an Abandoned one only ended tasks with
one that failed or was skipped; and the tasks can be ordered by their dependencies. -/
theorem plan_results_real (horder : P.HashOrderPermutes) (hs : P.HashSound L) (h : P.Accepts rules L)
    {p : Record} (hp : p ∈ P.accepted L) {requestId : RecordId} {d : PlanData}
    (hplan : P.Plans p requestId d) : P.PlanHolds L p d := by
  obtain ⟨s, hv⟩ := accepts_iff.mp h
  obtain ⟨hk, hd, rfl⟩ := hplan
  obtain ⟨i, hi, rfl⟩ := List.mem_iff_getElem.mp (mem_of_mem_accepted hp)
  obtain ⟨t, ht, hc⟩ := hv.accepted_at hs hi hp
  have hkind := (checkSubject_passes hc).kind
  simp only [Platform.checkKindSpecific, hk] at hkind
  have hacyclic := checkPlan_acyclic horder hd hkind
  simp only [Platform.checkPlan, hd, orReject_eq_none, Option.some.injEq, exists_eq_left', withActiveRequest,
    orElse_none_iff, rejectIf_eq_none, List.findSome?_eq_none_iff] at hkind
  obtain ⟨-, -, -, -, -, -, -, -, htasks, -, hstatus⟩ := hkind
  refine ⟨?_, ?_, ?_, hacyclic⟩
  · intro task htask id hid
    exact hv.provenBy hs hi ht (htasks task htask) hid
  · intro hcompleted
    simpa [Platform.planStatusInvalid, hcompleted] using hstatus
  · intro habandoned
    simpa [Platform.planStatusInvalid, habandoned, or_iff_not_imp_left] using hstatus

theorem provenPlan_real : ∃ d t x a, reference.Plans provenPlan sampleRequest.id d ∧ t ∈ d.tasks ∧
    t.resultRecordId = some freeResult.id ∧
    reference.ProvenBy workLog provenPlan sampleRequest.id freeResult.id x a := by
  have hin : provenPlan ∈ reference.accepted workLog := by
    rw [accepted_workLog]
    simp
  have hplan : reference.Plans provenPlan sampleRequest.id provenPlanData := by
    refine ⟨rfl, ?_, rfl⟩
    simp only [provenPlan, sampleSubject]
    decide +kernel
  have hholds := plan_results_real (fun _ _ => .refl _) workLog_hashSound workLog_accepts hin hplan
  have htask : ∃ t ∈ provenPlanData.tasks, t.resultRecordId = some freeResult.id := by decide
  obtain ⟨t, ht, hid⟩ := htask
  obtain ⟨-, x, a, hproven⟩ := hholds.cited t ht _ hid
  exact ⟨provenPlanData, t, x, a, hplan, ht, hid, hproven⟩

end Bellbook
