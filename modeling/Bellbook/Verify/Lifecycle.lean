import Bellbook.Verify.Authority

/-!
# The lifecycle of requests and actions

Six maps of the state follow requests and their actions: which requests are active, which actions
are open, the request of each action, the number of open actions of a request, its running plan
and its next turn.

* `LifecycleFold` says what one accepted record does to them.
* `ActionsInv` and `RequestsInv` say what they mean in terms of the accepted records, and
  `TurnsInv` counts the Responses of a request.
* `request_lifecycle` and `open_actions_exact` are read off these invariants.
-/

namespace Bellbook

open Std

/-! ## Records that speak to requests and actions -/

namespace Platform

variable (P : Platform)

/-- The record is a Result of the action or a Refusal of it. -/
def ClosesAction (x : Record) (actionId : RecordId) : Prop :=
  (x.kind = .result ∧ ∃ d, P.decode ResultData x.data = some d ∧ d.actionId = actionId) ∨
    (x.kind = .refusal ∧ ∃ d, P.decode RefusalData x.data = some d ∧ d.targetKind = .action ∧
      d.targetId = actionId)

/-- The record is an Action of the request. -/
def ActsFor (x : Record) (requestId : RecordId) : Prop :=
  x.kind = .action ∧ ∃ d, P.decode ActionData x.data = some d ∧ d.requestId = requestId

/-- The record is a Response to the request, with the payload. -/
def Answers (x : Record) (requestId : RecordId) (d : ResponseData) : Prop :=
  x.kind = .response ∧ P.decode ResponseData x.data = some d ∧ d.requestId = requestId

/-- The record is a Plan of the request, with the payload. -/
def Plans (x : Record) (requestId : RecordId) (d : PlanData) : Prop :=
  x.kind = .plan ∧ P.decode PlanData x.data = some d ∧ d.requestId = requestId

/-- The record is an Action, a Response or a Plan of the request, or a Refusal of it. -/
def Serves (x : Record) (requestId : RecordId) : Prop :=
  P.ActsFor x requestId ∨ (∃ d, P.Answers x requestId d) ∨ (∃ d, P.Plans x requestId d) ∨
    (x.kind = .refusal ∧ ∃ d, P.decode RefusalData x.data = some d ∧ d.targetKind = .request ∧
      d.targetId = requestId)

/-- The turn a record answers a request with. -/
def turnFor (requestId : RecordId) (x : Record) : Option UInt32 :=
  if x.kind = .response then
    ((P.decode ResponseData x.data).filter fun d => d.requestId = requestId).map
      ResponseData.turnIndex
  else none

/-- The turns the accepted Responses to a request carry, in log order. -/
def turns (requestId : RecordId) (A : List Record) : List UInt32 := A.filterMap (P.turnFor requestId)

end Platform

variable {P : Platform} {rules : VerifierRules} {L : List Record} {s s' : State} {r : Record}

/-! ## What one fold does -/

/-- The fields of the state that follow requests and actions. -/
structure Lifecycle where
  activeRequests : IdSet
  openActions : IdSet
  actionToRequest : IdMap RecordId
  requestOpenActionCount : IdMap Nat
  activePlans : IdMap RecordId
  responseTurns : IdMap UInt32

def State.lifecycle (s : State) : Lifecycle :=
  ⟨s.activeRequests, s.openActions, s.actionToRequest, s.requestOpenActionCount, s.activePlans,
    s.responseTurns⟩

/-- The plan slot of a request after a plan. -/
def State.planSlot (s : State) (r : Record) (data : PlanData) : IdMap RecordId :=
  (s.foldPlan r data).activePlans

/-- A fold, as far as the lifecycle fields can tell. -/
inductive LifecycleFold (P : Platform) (s : State) (r : Record) (s' : State) : Prop
  | request (hk : r.kind = .request)
      (heq : s'.lifecycle = { s.lifecycle with activeRequests := s.activeRequests.insert r.id })
  | action (hk : r.kind = .action) {d : ActionData} (hd : P.decode ActionData r.data = some d)
      (heq : s'.lifecycle = { s.lifecycle with
        openActions := s.openActions.insert r.id
        actionToRequest := s.actionToRequest.insert r.id d.requestId
        requestOpenActionCount := s.requestOpenActionCount.insert d.requestId
          (s.requestOpenActionCount[d.requestId]?.getD 0 + 1) })
  | closeAction {id : RecordId} (hcl : P.ClosesAction r id)
      (heq : s'.lifecycle = { s.lifecycle with
        openActions := s.openActions.erase id
        requestOpenActionCount := s.closeActionCount id })
  | refuse (hk : r.kind = .refusal) {id : RecordId} (hcl : P.Closes r id)
      (heq : s'.lifecycle = { s.lifecycle with
        activeRequests := s.activeRequests.erase id
        activePlans := s.activePlans.erase id })
  | response {id : RecordId} {d : ResponseData} (hr : P.Answers r id d)
      (heq : s'.lifecycle = { s.lifecycle with
        activeRequests := if d.closesRequest then s.activeRequests.erase id else s.activeRequests
        activePlans := if d.closesRequest then s.activePlans.erase id else s.activePlans
        responseTurns := s.responseTurns.insert id
          (saturatingSucc (s.responseTurns[id]?.getD 0)) })
  | plan {id : RecordId} {d : PlanData} (hr : P.Plans r id d)
      (heq : s'.lifecycle = { s.lifecycle with activePlans := s.planSlot r d })
  | other (hk : r.kind ≠ .request ∧ r.kind ≠ .action ∧ r.kind ≠ .response ∧ r.kind ≠ .plan)
      (hclose : ∀ id, ¬P.ClosesAction r id) (hrefuse : ∀ id, ¬P.Closes r id)
      (heq : s'.lifecycle = s.lifecycle)

theorem not_closesAction (hk : r.kind ≠ .result ∧ r.kind ≠ .refusal) (id : RecordId) :
    ¬P.ClosesAction r id := by
  rintro (⟨hk', -⟩ | ⟨hk', -⟩)
  · exact hk.1 hk'
  · exact hk.2 hk'

theorem not_closes (hk : r.kind ≠ .response ∧ r.kind ≠ .refusal) (id : RecordId) :
    ¬P.Closes r id := by
  rintro (⟨hk', -⟩ | ⟨hk', -⟩)
  · exact hk.1 hk'
  · exact hk.2 hk'

theorem closesAction_refusal (hk : r.kind = .refusal) {d : RefusalData}
    (hd : P.decode RefusalData r.data = some d) {id : RecordId} :
    P.ClosesAction r id ↔ d.targetKind = .action ∧ d.targetId = id := by
  simp [Platform.ClosesAction, hk, hd]

theorem closes_refusal (hk : r.kind = .refusal) {d : RefusalData}
    (hd : P.decode RefusalData r.data = some d) {id : RecordId} :
    P.Closes r id ↔ d.targetKind = .request ∧ d.targetId = id := by
  simp [Platform.Closes, hk, hd]

theorem Folded.lifecycle (h : Folded P s r s') : LifecycleFold P s r s' := by
  cases h with
  | request hk => exact .request hk rfl
  | action hk hd => exact .action hk hd rfl
  | @result hk d hd => exact .closeAction (.inl ⟨hk, d, hd, rfl⟩) rfl
  | @refusal hk d hd =>
    -- a Refusal acts on what it targets; that of a verified effect changes nothing
    cases htarget : d.targetKind with
    | action =>
      apply LifecycleFold.closeAction ((closesAction_refusal hk hd).mpr ⟨htarget, rfl⟩)
      simp only [State.foldRefusal, htarget]
      rfl
    | request =>
      apply LifecycleFold.refuse hk ((closes_refusal hk hd).mpr ⟨htarget, rfl⟩)
      simp only [State.foldRefusal, htarget]
      rfl
    | verifiedEffect =>
      apply LifecycleFold.other (by simp [hk])
      · intro id hcl
        simp [closesAction_refusal hk hd, htarget] at hcl
      · intro id hcl
        simp [closes_refusal hk hd, htarget] at hcl
      · simp only [State.foldRefusal, htarget]
  | @response hk d hd =>
    apply LifecycleFold.response ⟨hk, hd, rfl⟩
    unfold State.foldResponse
    cases d.closesRequest <;> rfl
  | plan hk hd => exact .plan ⟨hk, hd, rfl⟩ rfl
  | @requirement hk d =>
    obtain ⟨_, _, heq⟩ := s.foldRequirement_eq r d
    exact .other (by simp [hk]) (not_closesAction (by simp [hk])) (not_closes (by simp [hk]))
      (by rw [heq]; rfl)
  | inert hk =>
    have hne : r.kind ≠ .request ∧ r.kind ≠ .action ∧ r.kind ≠ .response ∧ r.kind ≠ .plan ∧
        r.kind ≠ .result ∧ r.kind ≠ .refusal := by
      rcases hk with hk | hk | hk <;> simp [hk]
    exact .other ⟨hne.1, hne.2.1, hne.2.2.1, hne.2.2.2.1⟩ (not_closesAction hne.2.2.2.2)
      (not_closes ⟨hne.2.2.1, hne.2.2.2.2.2⟩) rfl
  | capability hk | approval hk | summary hk | usage hk | retraction hk | selection hk =>
    exact .other (by simp [hk]) (not_closesAction (by simp [hk])) (not_closes (by simp [hk])) rfl

theorem Platform.ClosesAction.unique {a b : RecordId} (ha : P.ClosesAction r a)
    (hb : P.ClosesAction r b) : a = b := by
  rcases ha with ⟨hk, d, hd, rfl⟩ | ⟨hk, d, hd, -, rfl⟩
  · rcases hb with ⟨-, d', hd', rfl⟩ | ⟨hk', -⟩
    · rw [hd] at hd'
      cases hd'
      rfl
    · simp [hk] at hk'
  · exact ((closesAction_refusal hk hd).mp hb).2

theorem Platform.Closes.unique {a b : RecordId} (ha : P.Closes r a) (hb : P.Closes r b) : a = b := by
  rcases ha with ⟨hk, d, hd, rfl, -⟩ | ⟨hk, d, hd, -, rfl⟩
  · rcases hb with ⟨-, d', hd', rfl, -⟩ | ⟨hk', -⟩
    · rw [hd] at hd'
      cases hd'
      rfl
    · simp [hk] at hk'
  · exact ((closes_refusal hk hd).mp hb).2

theorem mem_erase_iff {α : Type} [Ord α] [TransOrd α] [LawfulEqOrd α] {t : ExtTreeSet α} {x y : α} :
    y ∈ t.erase x ↔ y ≠ x ∧ y ∈ t := by
  rw [ExtTreeSet.mem_erase, ne_eq, LawfulEqOrd.compare_eq_iff_eq, ne_eq, eq_comm]

theorem Platform.Answers.closes_iff {id id' : RecordId} {d : ResponseData} (h : P.Answers r id d) :
    P.Closes r id' ↔ d.closesRequest = true ∧ id' = id := by
  obtain ⟨hk, hd, rfl⟩ := h
  constructor
  · rintro (⟨-, d', hd', rfl, hcl⟩ | ⟨hk', -⟩)
    · rw [hd] at hd'
      cases hd'
      exact ⟨hcl, rfl⟩
    · simp [hk] at hk'
  · rintro ⟨hcl, rfl⟩
    exact .inl ⟨hk, d, hd, rfl, hcl⟩

namespace LifecycleFold

/-- The active requests after a fold. -/
theorem mem_activeRequests (h : LifecycleFold P s r s') {id : RecordId} :
    id ∈ s'.activeRequests ↔
      (id = r.id ∧ r.kind = .request) ∨ (id ∈ s.activeRequests ∧ ¬P.Closes r id) := by
  cases h with
  | request hk heq =>
    have hfield : s'.activeRequests = _ := congrArg Lifecycle.activeRequests heq
    rw [hfield, Worklist.mem_insert_iff]
    simp [hk, not_closes]
  | refuse hk hcl heq =>
    have hfield : s'.activeRequests = _ := congrArg Lifecycle.activeRequests heq
    rw [hfield, mem_erase_iff]
    have hiff : P.Closes r id ↔ id = _ := ⟨fun h => h.unique hcl, fun h => h ▸ hcl⟩
    rw [hiff]
    simp [hk, and_comm]
  | @response _ d hr heq =>
    have hfield : s'.activeRequests = if d.closesRequest then _ else _ :=
      congrArg Lifecycle.activeRequests heq
    rw [hfield, hr.closes_iff]
    cases hcl : d.closesRequest with
    | true => rw [if_pos rfl, mem_erase_iff]; simp [hr.1, and_comm]
    | false => simp [hr.1]
  | action hk hd heq =>
    have hfield : s'.activeRequests = s.activeRequests := congrArg Lifecycle.activeRequests heq
    simp [hfield, hk, not_closes]
  | @closeAction id' hcl heq =>
    have hfield : s'.activeRequests = s.activeRequests := congrArg Lifecycle.activeRequests heq
    have hnot : r.kind ≠ .request ∧ ¬P.Closes r id := by
      rcases hcl with ⟨hk, -⟩ | ⟨hk, d, hd, htarget, -⟩
      · exact ⟨by simp [hk], not_closes (by simp [hk]) id⟩
      · exact ⟨by simp [hk], by simp [closes_refusal hk hd, htarget]⟩
    simp [hfield, hnot]
  | plan hr heq =>
    have hfield : s'.activeRequests = s.activeRequests := congrArg Lifecycle.activeRequests heq
    simp [hfield, hr.1, not_closes]
  | other hk hclose hrefuse heq =>
    have hfield : s'.activeRequests = s.activeRequests := congrArg Lifecycle.activeRequests heq
    simp [hfield, hk.1, hrefuse]

/-- The open actions after a fold. -/
theorem mem_openActions (h : LifecycleFold P s r s') {id : RecordId} :
    id ∈ s'.openActions ↔
      (id = r.id ∧ r.kind = .action) ∨ (id ∈ s.openActions ∧ ¬P.ClosesAction r id) := by
  cases h with
  | action hk hd heq =>
    have hfield : s'.openActions = _ := congrArg Lifecycle.openActions heq
    rw [hfield, Worklist.mem_insert_iff]
    simp [hk, not_closesAction]
  | @closeAction id' hcl heq =>
    have hfield : s'.openActions = _ := congrArg Lifecycle.openActions heq
    rw [hfield, mem_erase_iff]
    have hiff : P.ClosesAction r id ↔ id = id' := ⟨fun h => h.unique hcl, fun h => h ▸ hcl⟩
    have hk : r.kind ≠ .action := by
      rcases hcl with ⟨hk, -⟩ | ⟨hk, -⟩ <;> simp [hk]
    simp [hiff, hk, and_comm]
  | refuse hk hcl heq =>
    have hfield : s'.openActions = s.openActions := congrArg Lifecycle.openActions heq
    have hnot : ¬P.ClosesAction r id := by
      rcases hcl with ⟨hk', -⟩ | ⟨-, d, hd, htarget, -⟩
      · simp [hk] at hk'
      · simp [closesAction_refusal hk hd, htarget]
    simp [hfield, hk, hnot]
  | request hk heq =>
    have hfield : s'.openActions = s.openActions := congrArg Lifecycle.openActions heq
    simp [hfield, hk, not_closesAction]
  | response hr heq =>
    have hfield : s'.openActions = s.openActions := congrArg Lifecycle.openActions heq
    simp [hfield, hr.1, not_closesAction]
  | plan hr heq =>
    have hfield : s'.openActions = s.openActions := congrArg Lifecycle.openActions heq
    simp [hfield, hr.1, not_closesAction]
  | other hk hclose hrefuse heq =>
    have hfield : s'.openActions = s.openActions := congrArg Lifecycle.openActions heq
    simp [hfield, hk.2.1, hclose]

end LifecycleFold

/-- The request of an action after a fold. -/
theorem LifecycleFold.actionToRequest (h : LifecycleFold P s r s') {id q : RecordId} :
    s'.actionToRequest[id]? = some q ↔
      (id = r.id ∧ P.ActsFor r q) ∨
        (¬(id = r.id ∧ r.kind = .action) ∧ s.actionToRequest[id]? = some q) := by
  have hother (hk : r.kind ≠ .action) (heq : s'.actionToRequest = s.actionToRequest) :
      s'.actionToRequest[id]? = some q ↔
        (id = r.id ∧ P.ActsFor r q) ∨
          (¬(id = r.id ∧ r.kind = .action) ∧ s.actionToRequest[id]? = some q) := by
    simp [heq, hk, Platform.ActsFor]
  cases h with
  | @action hk d hd heq =>
    have hfield : s'.actionToRequest = _ := congrArg Lifecycle.actionToRequest heq
    rw [hfield]
    simp only [ExtTreeMap.getElem?_insert, LawfulEqOrd.compare_eq_iff_eq]
    by_cases hid : r.id = id
    · simp [hid, hk, hd, Platform.ActsFor]
    · simp [hid, Ne.symm hid]
  | request hk heq => exact hother (by simp [hk]) (congrArg Lifecycle.actionToRequest heq)
  | closeAction hcl heq =>
    apply hother _ (congrArg Lifecycle.actionToRequest heq)
    rcases hcl with ⟨hk, -⟩ | ⟨hk, -⟩ <;> simp [hk]
  | refuse hk _ heq => exact hother (by simp [hk]) (congrArg Lifecycle.actionToRequest heq)
  | response hr heq => exact hother (by simp [hr.1]) (congrArg Lifecycle.actionToRequest heq)
  | plan hr heq => exact hother (by simp [hr.1]) (congrArg Lifecycle.actionToRequest heq)
  | other hk _ _ heq => exact hother hk.2.1 (congrArg Lifecycle.actionToRequest heq)

/-! ## Counting open actions -/

/-- The open actions of a request. -/
def State.openFor (s : State) (requestId : RecordId) : IdSet :=
  s.openActions.filter fun a => s.actionToRequest[a]? = some requestId

/-- A count as the state stores it: absent when it is zero. -/
def nonzero (n : Nat) : Option Nat := if n = 0 then none else some n

theorem nonzero_getD (n : Nat) : (nonzero n).getD 0 = n := by
  unfold nonzero
  split
  · next h => exact h.symm
  · rfl

theorem State.mem_openFor {q id : RecordId} :
    id ∈ s.openFor q ↔ id ∈ s.openActions ∧ s.actionToRequest[id]? = some q := by
  simp [State.openFor, ExtTreeSet.mem_filter]

theorem size_insert_of_not_mem {t : IdSet} {id : RecordId} (h : id ∉ t) :
    (t.insert id).size = t.size + 1 := by
  rw [ExtTreeSet.size_insert, if_neg (by rwa [ExtTreeSet.contains_iff_mem])]

theorem size_erase_of_mem {t : IdSet} {id : RecordId} (h : id ∈ t) :
    (t.erase id).size = t.size - 1 := by
  rw [ExtTreeSet.size_erase, if_pos (by rwa [ExtTreeSet.contains_iff_mem])]

/-- A new action is counted for its request. -/
theorem LifecycleFold.openFor_action (h : LifecycleFold P s r s') (hk : r.kind = .action)
    (hnew : r.id ∉ s.openActions) {d : ActionData} (hd : P.decode ActionData r.data = some d)
    (q : RecordId) :
    (s'.openFor q).size = (s.openFor q).size + if d.requestId = q then 1 else 0 := by
  have hmem (id : RecordId) :
      id ∈ s'.openFor q ↔ (id = r.id ∧ d.requestId = q) ∨ id ∈ s.openFor q := by
    rw [State.mem_openFor, State.mem_openFor, h.mem_openActions, h.actionToRequest]
    have hacts : P.ActsFor r q ↔ d.requestId = q := by simp [Platform.ActsFor, hk, hd]
    have hcl := not_closesAction (P := P) (r := r) (by simp [hk]) id
    by_cases hid : id = r.id
    · subst hid
      simp [hk, hacts, hnew]
    · simp [hid, hcl]
  split
  · next hq =>
    have heq : s'.openFor q = (s.openFor q).insert r.id := by
      apply ExtTreeSet.ext_mem
      intro id
      rw [hmem, Worklist.mem_insert_iff]
      simp [hq]
    rw [heq, size_insert_of_not_mem fun hin => hnew (State.mem_openFor.mp hin).1]
  · next hq =>
    have heq : s'.openFor q = s.openFor q := by
      apply ExtTreeSet.ext_mem
      intro id
      simp [hmem, hq]
    rw [heq, Nat.add_zero]

/-- A record that is no Action takes the action it closes out of every count. -/
theorem LifecycleFold.mem_openFor (h : LifecycleFold P s r s') (hk : r.kind ≠ .action)
    {q id : RecordId} : id ∈ s'.openFor q ↔ id ∈ s.openFor q ∧ ¬P.ClosesAction r id := by
  rw [State.mem_openFor, State.mem_openFor, h.mem_openActions, h.actionToRequest]
  have hacts : ¬P.ActsFor r q := fun hacts => hk hacts.1
  simp only [hk, hacts, and_false, false_or, not_false_eq_true, true_and]
  tauto

/-! ## What the checks ask for -/

/-- A record that closes an action names an open one. -/
theorem closesAction_open {prior : Prior} (hc : P.checkSubject rules prior s r = none)
    {id : RecordId} (hcl : P.ClosesAction r id) : id ∈ s.openActions := by
  have hkind := (checkSubject_passes hc).kind
  rcases hcl with ⟨hk, d, hd, rfl⟩ | ⟨hk, d, hd, htarget, rfl⟩
  · simp only [Platform.checkKindSpecific, hk, Platform.checkResult, hd, orReject_eq_none,
      Option.some.injEq, exists_eq_left', orElse_none_iff, rejectIf_eq_none, not_not] at hkind
    exact hkind.2.1
  · simp only [Platform.checkKindSpecific, hk, Platform.checkRefusal, hd, orReject_eq_none,
      Option.some.injEq, exists_eq_left', htarget, orElse_none_iff, rejectIf_eq_none,
      not_not] at hkind
    obtain ⟨t, -, ⟨-, hopen, -⟩, -⟩ := hkind
    exact hopen

theorem withActiveRequest_active {prior : Prior} {id : RecordId} {k : Record → Option ReasonCode}
    (h : withActiveRequest prior s r id k = none) : id ∈ s.activeRequests := by
  simp only [withActiveRequest, orElse_none_iff, rejectIf_eq_none, not_not] at h
  exact h.1

/-- A record that serves a request names an active one. -/
theorem serves_active {prior : Prior} (hc : P.checkSubject rules prior s r = none) {id : RecordId}
    (hserves : P.Serves r id) : id ∈ s.activeRequests := by
  have hkind := (checkSubject_passes hc).kind
  rcases hserves with ⟨hk, d, hd, rfl⟩ | ⟨d, hk, hd, rfl⟩ | ⟨d, hk, hd, rfl⟩ | ⟨hk, hrest⟩
  · simp only [Platform.checkKindSpecific, hk, Platform.checkAction, hd, orReject_eq_none,
      Option.some.injEq, exists_eq_left'] at hkind
    exact withActiveRequest_active hkind
  · simp only [Platform.checkKindSpecific, hk, Platform.checkResponse, hd, orReject_eq_none,
      Option.some.injEq, exists_eq_left'] at hkind
    exact withActiveRequest_active hkind
  · simp only [Platform.checkKindSpecific, hk, Platform.checkPlan, hd, orReject_eq_none,
      Option.some.injEq, exists_eq_left', orElse_none_iff] at hkind
    exact withActiveRequest_active hkind.2
  · exact closes_active hc (.inr ⟨hk, hrest⟩)

/-! ## Open actions over whole runs -/

/-- What the action fields of a state mean over the accepted records. -/
structure ActionsInv (P : Platform) (A : List Record) (s : State) : Prop where
  isOpen : ∀ id, id ∈ s.openActions ↔
    (∃ a ∈ A, a.id = id ∧ a.kind = .action) ∧ ∀ x ∈ A, ¬P.ClosesAction x id
  request : ∀ id q, s.actionToRequest[id]? = some q ↔ ∃ a ∈ A, a.id = id ∧ P.ActsFor a q
  payload : ∀ a ∈ A, a.kind = .action → ∃ q, P.ActsFor a q
  count : ∀ q, s.requestOpenActionCount[q]? = nonzero (s.openFor q).size
  closed : ∀ x ∈ A, ∀ id, P.ClosesAction x id → ∃ a ∈ A, a.id = id ∧ a.kind = .action
  once : ∀ x ∈ A, ∀ y ∈ A, ∀ id, P.ClosesAction x id → P.ClosesAction y id → x = y

namespace ActionsInv

variable {A : List Record}

/-- An open action has a request, and is counted for it. -/
theorem counted (h : ActionsInv P A s) {id : RecordId} (hopen : id ∈ s.openActions) :
    ∃ q count, s.actionToRequest[id]? = some q ∧ s.requestOpenActionCount[q]? = some count ∧
      0 < count ∧ count = (s.openFor q).size := by
  obtain ⟨⟨a, ha, rfl, hk⟩, -⟩ := (h.isOpen id).mp hopen
  obtain ⟨q, hacts⟩ := h.payload a ha hk
  have hreq := (h.request a.id q).mpr ⟨a, ha, rfl, hacts⟩
  have hin : a.id ∈ s.openFor q := State.mem_openFor.mpr ⟨hopen, hreq⟩
  have hpos : (s.openFor q).size ≠ 0 := by
    rw [ne_eq, ← ExtTreeSet.eq_empty_iff_size_eq_zero]
    intro hempty
    simp [hempty] at hin
  refine ⟨q, (s.openFor q).size, hreq, ?_, Nat.pos_of_ne_zero hpos, rfl⟩
  rw [h.count, nonzero, if_neg hpos]

theorem closeActionCount (h : ActionsInv P A s) {id : RecordId} (hopen : id ∈ s.openActions)
    (q : RecordId) :
    (s.closeActionCount id)[q]? = nonzero ((s.openFor q).erase id).size := by
  obtain ⟨q', count, hreq, hcount, hpos, hsize⟩ := h.counted hopen
  have hin (p : RecordId) : id ∈ s.openFor p ↔ p = q' := by
    simp [State.mem_openFor, hopen, hreq, eq_comm]
  simp only [State.closeActionCount, hreq, hcount]
  by_cases hq : q = q'
  · subst hq
    rw [size_erase_of_mem ((hin q).mpr rfl), ← hsize]
    split
    · next hzero => simp [nonzero, hzero]
    · next hzero => simp [nonzero, hzero]
  · have hout : (s.openFor q).erase id = s.openFor q := by
      apply ExtTreeSet.ext_mem
      intro x
      rw [mem_erase_iff]
      refine ⟨fun h => h.2, fun hx => ⟨fun heq => hq ((hin q).mp (heq ▸ hx)), hx⟩⟩
    rw [hout, ← h.count q]
    split
    · simp [ExtTreeMap.getElem?_erase, Ne.symm hq]
    · simp [ExtTreeMap.getElem?_insert, Ne.symm hq]

end ActionsInv

/-- The common stage of the fold does not touch the lifecycle fields. -/
theorem Folded.lifecycle_accept (h : Folded P (s.accept r) r s') : LifecycleFold P s r s' := by
  cases h.lifecycle with
  | request hk heq => exact .request hk heq
  | action hk hd heq => exact .action hk hd heq
  | closeAction hcl heq => exact .closeAction hcl heq
  | refuse hk hcl heq => exact .refuse hk hcl heq
  | response hr heq => exact .response hr heq
  | plan hr heq => exact .plan hr heq
  | other hk hclose hrefuse heq => exact .other hk hclose hrefuse heq

/-- The counts after a fold. -/
theorem ActionsInv.count_step {A : List Record} (h : ActionsInv P A s)
    (hf : LifecycleFold P s r s') (hnew : r.id ∉ s.openActions)
    (hopen : ∀ id, P.ClosesAction r id → id ∈ s.openActions) (q : RecordId) :
    s'.requestOpenActionCount[q]? = nonzero (s'.openFor q).size := by
  have hother (hk : r.kind ≠ .action) (hcl : ∀ id, ¬P.ClosesAction r id)
      (heq : s'.requestOpenActionCount = s.requestOpenActionCount) :
      s'.requestOpenActionCount[q]? = nonzero (s'.openFor q).size := by
    have hsame : s'.openFor q = s.openFor q := by
      apply ExtTreeSet.ext_mem
      intro id
      simp [hf.mem_openFor hk, hcl id]
    rw [heq, hsame, h.count]
  cases id hf with
  | @action hk d hd heq =>
    have hfield : s'.requestOpenActionCount = _ := congrArg Lifecycle.requestOpenActionCount heq
    rw [hfield, hf.openFor_action hk hnew hd]
    simp only [ExtTreeMap.getElem?_insert, LawfulEqOrd.compare_eq_iff_eq]
    split
    · next hq =>
      subst hq
      rw [h.count, nonzero_getD]
      simp [nonzero]
    · exact h.count q
  | @closeAction id' hcl heq =>
    have hfield : s'.requestOpenActionCount = _ := congrArg Lifecycle.requestOpenActionCount heq
    have hk : r.kind ≠ .action := by
      rcases hcl with ⟨hk, -⟩ | ⟨hk, -⟩ <;> simp [hk]
    have hsame : s'.openFor q = (s.openFor q).erase id' := by
      apply ExtTreeSet.ext_mem
      intro id
      have hiff : P.ClosesAction r id ↔ id = id' := ⟨fun h => h.unique hcl, fun h => h ▸ hcl⟩
      rw [hf.mem_openFor hk, mem_erase_iff, hiff, and_comm]
    rw [hfield, hsame]
    exact h.closeActionCount (hopen id' hcl) q
  | request hk heq =>
    exact hother (by simp [hk]) (not_closesAction (by simp [hk]))
      (congrArg Lifecycle.requestOpenActionCount heq)
  | refuse hk hcl heq =>
    refine hother (by simp [hk]) (fun id => ?_) (congrArg Lifecycle.requestOpenActionCount heq)
    rcases hcl with ⟨hk', -⟩ | ⟨-, d, hd, htarget, -⟩
    · simp [hk] at hk'
    · simp [closesAction_refusal hk hd, htarget]
  | response hr heq =>
    exact hother (by simp [hr.1]) (not_closesAction (by simp [hr.1]))
      (congrArg Lifecycle.requestOpenActionCount heq)
  | plan hr heq =>
    exact hother (by simp [hr.1]) (not_closesAction (by simp [hr.1]))
      (congrArg Lifecycle.requestOpenActionCount heq)
  | other hk hclose _ heq =>
    exact hother hk.2.1 hclose (congrArg Lifecycle.requestOpenActionCount heq)

theorem exists_mem_concat {α : Type} {p : α → Prop} {A : List α} {r : α} :
    (∃ x ∈ A ++ [r], p x) ↔ (∃ x ∈ A, p x) ∨ p r := by
  simp [or_and_right, exists_or]

theorem forall_mem_concat {α : Type} {p : α → Prop} {A : List α} {r : α} :
    (∀ x ∈ A ++ [r], p x) ↔ (∀ x ∈ A, p x) ∧ p r := by
  simp [or_imp, forall_and]

theorem ActionsInv.step {A : List Record} (h : ActionsInv P A s) (hf : LifecycleFold P s r s')
    (hfresh : ∀ a ∈ A, a.id ≠ r.id) (hopen : ∀ id, P.ClosesAction r id → id ∈ s.openActions) :
    ActionsInv P (A ++ [r]) s' := by
  have hknown (id : RecordId) (hid : id ∈ s.openActions) :
      (∃ a ∈ A, a.id = id ∧ a.kind = .action) ∧ ∀ x ∈ A, ¬P.ClosesAction x id :=
    (h.isOpen id).mp hid
  have hnew : r.id ∉ s.openActions := by
    intro hin
    obtain ⟨⟨a, ha, hid, -⟩, -⟩ := hknown _ hin
    exact hfresh a ha hid
  -- nothing accepted before `r` can have closed it
  have hunclosed : ∀ x ∈ A, ¬P.ClosesAction x r.id := by
    intro x hx hcl
    obtain ⟨a, ha, hid, -⟩ := h.closed x hx _ hcl
    exact hfresh a ha hid
  have hself (hk : r.kind = .action) : ¬P.ClosesAction r r.id := not_closesAction (by simp [hk]) _
  constructor
  case isOpen =>
    intro id
    rw [hf.mem_openActions, h.isOpen id]
    rw [exists_mem_concat, forall_mem_concat]
    constructor
    · rintro (⟨rfl, hk⟩ | ⟨⟨hact, hno⟩, hr⟩)
      · exact ⟨.inr ⟨rfl, hk⟩, hunclosed, hself hk⟩
      · exact ⟨.inl hact, hno, hr⟩
    · rintro ⟨hact | ⟨rfl, hk⟩, hno, hr⟩
      · exact .inr ⟨⟨hact, hno⟩, hr⟩
      · exact .inl ⟨rfl, hk⟩
  case request =>
    intro id q
    rw [hf.actionToRequest, h.request, exists_mem_concat]
    constructor
    · rintro (⟨rfl, hacts⟩ | ⟨-, hold⟩)
      · exact .inr ⟨rfl, hacts⟩
      · exact .inl hold
    · rintro (⟨a, ha, rfl, hacts⟩ | ⟨rfl, hacts⟩)
      · exact .inr ⟨fun heq => hfresh a ha heq.1, a, ha, rfl, hacts⟩
      · exact .inl ⟨rfl, hacts⟩
  case payload =>
    intro a ha hk
    rcases List.mem_append.mp ha with ha | ha
    · exact h.payload a ha hk
    · rw [List.mem_singleton.mp ha] at hk ⊢
      cases id hf with
      | @action _ d hd => exact ⟨d.requestId, hk, d, hd, rfl⟩
      | request hk' => simp [hk] at hk'
      | closeAction hcl => rcases hcl with ⟨hk', -⟩ | ⟨hk', -⟩ <;> simp [hk] at hk'
      | refuse hk' => simp [hk] at hk'
      | response hr => exact absurd hr.1 (by simp [hk])
      | plan hr => exact absurd hr.1 (by simp [hk])
      | other hk' => exact absurd hk hk'.2.1
  case count => exact fun q => h.count_step hf hnew hopen q
  case closed =>
    intro x hx id hcl
    rcases List.mem_append.mp hx with hx | hx
    · obtain ⟨a, ha, hrest⟩ := h.closed x hx id hcl
      exact ⟨a, List.mem_append_left _ ha, hrest⟩
    · rw [List.mem_singleton.mp hx] at hcl
      obtain ⟨⟨a, ha, hrest⟩, -⟩ := hknown id (hopen id hcl)
      exact ⟨a, List.mem_append_left _ ha, hrest⟩
  case once =>
    -- an action that was closed before is not open, so `r` cannot close it again
    have hagain (x : Record) (hx : x ∈ A) (id : RecordId) (hcl : P.ClosesAction x id) :
        ¬P.ClosesAction r id := fun hr => (hknown id (hopen id hr)).2 x hx hcl
    intro x hx y hy id hclx hcly
    rw [List.mem_append, List.mem_singleton] at hx hy
    rcases hx with hx | rfl <;> rcases hy with hy | rfl
    · exact h.once x hx y hy id hclx hcly
    · exact absurd hcly (hagain x hx id hclx)
    · exact absurd hclx (hagain y hy id hcly)
    · rfl

theorem Replays.accepted_fresh {v : Record} (h : Replays P rules L s)
    (hstep : PairStep P rules L s r v s') : ∀ a ∈ P.accepted L, a.id ≠ r.id := by
  intro a ha
  obtain ⟨hmem, hk⟩ := h.mem_of_mem_accepted ha
  exact h.fresh hstep hmem hk

theorem Verified.actionsInv (h : Verified P rules L s) : ActionsInv P (P.accepted L) s := by
  apply Verified.accepted_induction _ _ _ h
  · intro A s t hinv
    exact ⟨hinv.isOpen, hinv.request, hinv.payload, hinv.count, hinv.closed, hinv.once⟩
  · have hcount (q : RecordId) : ((State.empty).openFor q).size = 0 := by
      rw [← ExtTreeSet.eq_empty_iff_size_eq_zero]
      apply ExtTreeSet.ext_mem
      intro id
      simp [State.mem_openFor, State.empty]
    constructor <;> simp [State.empty, nonzero]
    intro q
    exact (if_pos (hcount q)).symm
  · intro L s r v s' hL hstep hc hf hinv
    exact hinv.step hf.lifecycle_accept (hL.run.accepted_fresh hstep)
      fun id hcl => closesAction_open hc hcl

/-! ## Requests over whole runs -/

/-- A record that closes a request serves it. -/
theorem Platform.Closes.serves {id : RecordId} (h : P.Closes r id) : P.Serves r id := by
  rcases h with ⟨hk, d, hd, hreq, -⟩ | h
  · exact .inr (.inl ⟨d, hk, hd, hreq⟩)
  · exact .inr (.inr (.inr h))

/-- What `active_requests` means over the accepted records. -/
structure RequestsInv (P : Platform) (A : List Record) (s : State) : Prop where
  active : ∀ id, id ∈ s.activeRequests ↔
    (∃ q ∈ A, q.id = id ∧ q.kind = .request) ∧ ∀ x ∈ A, ¬P.Closes x id
  served : ∀ x ∈ A, ∀ id, P.Serves x id → ∃ q ∈ A, q.id = id ∧ q.kind = .request

theorem RequestsInv.step {A : List Record} (h : RequestsInv P A s) (hf : LifecycleFold P s r s')
    (hfresh : ∀ a ∈ A, a.id ≠ r.id) (hactive : ∀ id, P.Serves r id → id ∈ s.activeRequests) :
    RequestsInv P (A ++ [r]) s' := by
  constructor
  case active =>
    intro id
    rw [hf.mem_activeRequests, h.active id, exists_mem_concat, forall_mem_concat]
    constructor
    · rintro (⟨rfl, hk⟩ | ⟨⟨hreq, hno⟩, hr⟩)
      · refine ⟨.inr ⟨rfl, hk⟩, fun x hx hcl => ?_, not_closes (by simp [hk]) _⟩
        -- an earlier record could only close a request accepted before it
        obtain ⟨q, hq, hid, -⟩ := h.served x hx _ hcl.serves
        exact hfresh q hq hid
      · exact ⟨.inl hreq, hno, hr⟩
    · rintro ⟨hreq | ⟨rfl, hk⟩, hno, hr⟩
      · exact .inr ⟨⟨hreq, hno⟩, hr⟩
      · exact .inl ⟨rfl, hk⟩
  case served =>
    intro x hx id hserves
    rw [exists_mem_concat]
    rcases List.mem_append.mp hx with hx | hx
    · exact .inl (h.served x hx id hserves)
    · rw [List.mem_singleton.mp hx] at hserves
      exact .inl ((h.active id).mp (hactive id hserves)).1

theorem Verified.requestsInv (h : Verified P rules L s) : RequestsInv P (P.accepted L) s := by
  apply Verified.accepted_induction _ _ _ h
  · intro A s t hinv
    exact ⟨hinv.active, hinv.served⟩
  · constructor <;> simp [State.empty]
  · intro L s r v s' hL hstep hc hf hinv
    exact hinv.step hf.lifecycle_accept (hL.run.accepted_fresh hstep)
      fun id hserves => serves_active hc hserves

/-! ## Turns -/

/-- The turns of a request count up from zero, and the state holds the next one. -/
structure TurnsInv (P : Platform) (A : List Record) (s : State) : Prop where
  next : ∀ id, (s.responseTurns[id]?.getD 0).toNat = (P.turns id A).length
  consecutive : ∀ id, (P.turns id A).map UInt32.toNat = List.range (P.turns id A).length

theorem turnFor_answers {id id' : RecordId} {d : ResponseData} (h : P.Answers r id d) :
    P.turnFor id' r = if id = id' then some d.turnIndex else none := by
  obtain ⟨hk, hd, rfl⟩ := h
  simp only [Platform.turnFor, hk, hd, if_true]
  split
  · next heq => simp [heq]
  · next hne => simp [hne]

theorem turnFor_other (hk : r.kind ≠ .response) (id : RecordId) : P.turnFor id r = none := by
  simp [Platform.turnFor, hk]

theorem saturatingSucc_toNat {n : UInt32} (h : n.toNat ≠ 4294967295) :
    (saturatingSucc n).toNat = n.toNat + 1 := by
  have := n.toNat_lt
  simp only [saturatingSucc, if_neg h, UInt32.toNat_add, UInt32.toNat_one]
  omega

/-- A Response that passes carries the next turn of its request, and there is one after it. -/
theorem checkResponse_turn {prior : Prior} (hc : P.checkSubject rules prior s r = none)
    {id : RecordId} {d : ResponseData} (h : P.Answers r id d) :
    (s.responseTurns[id]?.getD 0).toNat ≠ 4294967295 ∧
      d.turnIndex = s.responseTurns[id]?.getD 0 := by
  obtain ⟨hk, hd, rfl⟩ := h
  have hkind := (checkSubject_passes hc).kind
  simp only [Platform.checkKindSpecific, hk, Platform.checkResponse, hd, orReject_eq_none,
    Option.some.injEq, exists_eq_left', withActiveRequest, orElse_none_iff, rejectIf_eq_none,
    not_or, not_not] at hkind
  obtain ⟨-, request, -, -, hturn, -⟩ := hkind
  exact hturn

theorem LifecycleFold.responseTurns (h : LifecycleFold P s r s') (hk : r.kind ≠ .response) :
    s'.responseTurns = s.responseTurns := by
  cases h with
  | response hr heq => exact absurd hr.1 hk
  | request _ heq | action _ _ heq | closeAction _ heq | refuse _ _ heq | plan _ heq
  | other _ _ _ heq => exact congrArg Lifecycle.responseTurns heq

theorem TurnsInv.step {A : List Record} (h : TurnsInv P A s) (hf : LifecycleFold P s r s')
    (hturn : ∀ id d, P.Answers r id d → (s.responseTurns[id]?.getD 0).toNat ≠ 4294967295 ∧
      d.turnIndex = s.responseTurns[id]?.getD 0) : TurnsInv P (A ++ [r]) s' := by
  by_cases hk : r.kind = .response
  · cases hf with
    | @response id d hr heq =>
      have hfield : s'.responseTurns = _ := congrArg Lifecycle.responseTurns heq
      obtain ⟨hceiling, hindex⟩ := hturn id d hr
      have hturns (id' : RecordId) : P.turns id' (A ++ [r]) =
          P.turns id' A ++ if id = id' then [d.turnIndex] else [] := by
        simp only [Platform.turns, List.filterMap_append, List.filterMap_cons, List.filterMap_nil,
          turnFor_answers hr]
        split <;> simp_all
      constructor
      · intro id'
        rw [hfield, hturns]
        simp only [ExtTreeMap.getElem?_insert, LawfulEqOrd.compare_eq_iff_eq]
        split
        · next heq =>
          subst heq
          rw [Option.getD_some, saturatingSucc_toNat hceiling, h.next, List.length_append]
          rfl
        · rw [List.append_nil]
          exact h.next id'
      · intro id'
        rw [hturns]
        split
        · next heq =>
          subst heq
          rw [List.map_append, h.consecutive, List.length_append, List.length_singleton,
            List.range_succ, ← h.next id, ← hindex]
          rfl
        · rw [List.append_nil]
          exact h.consecutive id'
    | request hk' => simp [hk] at hk'
    | action hk' => simp [hk] at hk'
    | closeAction hcl => rcases hcl with ⟨hk', -⟩ | ⟨hk', -⟩ <;> simp [hk] at hk'
    | refuse hk' => simp [hk] at hk'
    | plan hr => exact absurd hr.1 (by simp [hk])
    | other hk' => exact absurd hk hk'.2.2.1
  · have hturns (id : RecordId) : P.turns id (A ++ [r]) = P.turns id A := by
      simp [Platform.turns, turnFor_other hk]
    constructor
    · intro id
      rw [hf.responseTurns hk, hturns]
      exact h.next id
    · intro id
      rw [hturns]
      exact h.consecutive id

theorem Verified.turnsInv (h : Verified P rules L s) : TurnsInv P (P.accepted L) s := by
  apply Verified.accepted_induction _ _ _ h
  · intro A s t hinv
    exact ⟨hinv.next, hinv.consecutive⟩
  · constructor <;> simp [State.empty, Platform.turns]
  · intro L s r v s' hL hstep hc hf hinv
    exact hinv.step hf.lifecycle_accept fun id d hr => checkResponse_turn hc hr

/-! ## The lifecycle law -/

/-- What the record accepted at a position has passed, in the state before it. -/
theorem Verified.accepted_check (h : Verified P rules L s) {i : Nat} (hi : i < L.length)
    (ha : L[i] ∈ P.accepted L) :
    ∃ t, Verified P rules (L.take i) t ∧
      P.checkSubject rules (priorView (L.take i ++ [L[i]])) t L[i] = none := by
  obtain ⟨k, hk, t, u, rfl, ht, hc, -⟩ := h.accepted_round hi ha
  rw [checkRecord_subject (h.run.mem_of_mem_accepted ha).2] at hc
  exact ⟨t, ht, hc⟩

/-- A closing Response finds no open action of its request. -/
theorem checkResponse_closing {prior : Prior} (hc : P.checkSubject rules prior s r = none)
    {id : RecordId} {d : ResponseData} (h : P.Answers r id d) (hcl : d.closesRequest = true) :
    s.requestOpenActionCount[id]?.getD 0 = 0 ∧ id ∉ s.activePlans := by
  obtain ⟨hk, hd, rfl⟩ := h
  have hkind := (checkSubject_passes hc).kind
  simp only [Platform.checkKindSpecific, hk, Platform.checkResponse, hd, orReject_eq_none,
    Option.some.injEq, exists_eq_left', withActiveRequest, orElse_none_iff, rejectIf_eq_none,
    hcl, if_true, Nat.not_lt, Nat.le_zero] at hkind
  obtain ⟨-, request, -, -, -, hcount, hplan⟩ := hkind
  exact ⟨hcount, hplan⟩

/-- An action of a request without open actions has been closed. -/
theorem ActionsInv.closed_of_count {A : List Record} (h : ActionsInv P A s) {id : RecordId}
    (hcount : s.requestOpenActionCount[id]?.getD 0 = 0) {a : Record} (ha : a ∈ A)
    (hacts : P.ActsFor a id) : ∃ x ∈ A, P.ClosesAction x a.id := by
  by_contra hnone
  push Not at hnone
  have hopen : a.id ∈ s.openActions := (h.isOpen a.id).mpr ⟨⟨a, ha, rfl, hacts.1⟩, hnone⟩
  obtain ⟨q, count, hreq, hsome, hpos, -⟩ := h.counted hopen
  rw [(h.request a.id id).mpr ⟨a, ha, rfl, hacts⟩] at hreq
  cases hreq
  rw [hsome, Option.getD_some] at hcount
  omega

/-- **The lifecycle of requests.** In the state of every prefix a Request is active exactly from
its acceptance until the first accepted record that closes it; a closed one is never active again
and no later accepted record serves it; its Responses carry the turns 0, 1, 2, …; and where a
Response closes it, each of its Actions has been closed. -/
theorem request_lifecycle (h : P.Accepts rules L) :
    (∀ k, 2 * k ≤ L.length → ∃ s, P.buildStateUnchecked (L.take (2 * k)) = some s ∧
      (∀ id, id ∈ s.activeRequests ↔
        (∃ q ∈ P.accepted (L.take (2 * k)), q.id = id ∧ q.kind = .request) ∧
          ∀ x ∈ P.accepted (L.take (2 * k)), ¬P.Closes x id) ∧
      ∀ i (_ : i < L.length), i < 2 * k → L[i] ∈ P.accepted L → ∀ id, P.Closes L[i] id →
        id ∉ s.activeRequests) ∧
    (∀ i j (_ : i < j) (_ : j < L.length), L[i] ∈ P.accepted L → L[j] ∈ P.accepted L →
      ∀ id, P.Closes L[i] id → ¬P.Serves L[j] id) ∧
    (∀ id, (P.turns id (P.accepted L)).map UInt32.toNat =
      List.range (P.turns id (P.accepted L)).length) ∧
    ∀ i (_ : i < L.length), L[i] ∈ P.accepted L → ∀ id d, P.Answers L[i] id d →
      d.closesRequest = true → ∀ a ∈ P.accepted (L.take i), P.ActsFor a id →
        ∃ x ∈ P.accepted (L.take i), P.ClosesAction x a.id := by
  obtain ⟨s, hv⟩ := accepts_iff.mp h
  refine ⟨fun k hk => ?_, fun i j hij hj hi hjacc id hcl hserves => ?_,
    hv.turnsInv.consecutive, fun i hi hacc id d hans hcl a ha hacts => ?_⟩
  · obtain ⟨t, ht⟩ := hv.take hk
    refine ⟨t, ht.run.build, ht.requestsInv.active, fun i hi hik hacc id hcl hactive => ?_⟩
    have hbefore := hv.accepted_before ht hik hk hacc
    exact ((ht.requestsInv.active id).mp hactive).2 _ hbefore hcl
  · obtain ⟨t, ht, hc⟩ := hv.accepted_check hj hjacc
    have hactive := (ht.requestsInv.active id).mp (serves_active hc hserves)
    exact hactive.2 _ (hv.accepted_before ht hij (by omega) hi) hcl
  · obtain ⟨t, ht, hc⟩ := hv.accepted_check hi hacc
    exact ht.actionsInv.closed_of_count (checkResponse_closing hc hans hcl).1 ha hacts

theorem sampleLog_lifecycle : sampleLog.length = 8 ∧
    ∃ s, reference.buildStateUnchecked (sampleLog.take 8) = some s ∧
      (∀ id, id ∈ s.activeRequests ↔
        (∃ q ∈ reference.accepted (sampleLog.take 8), q.id = id ∧ q.kind = .request) ∧
          ∀ x ∈ reference.accepted (sampleLog.take 8), ¬reference.Closes x id) := by
  obtain ⟨s, hs, hactive, -⟩ := (request_lifecycle sampleLog_accepts).1 4 (by decide)
  exact ⟨rfl, s, hs, hactive⟩

/-- **Open actions are accounted for.** In the state of every prefix: an action is open exactly
while no accepted record closes it; none is closed twice; and the count of a request is the number
of its open actions, absent when that is zero. A record that closes an action finds a positive
count to take it from. -/
theorem open_actions_exact (h : P.Accepts rules L) :
    (∀ k, 2 * k ≤ L.length → ∃ s, P.buildStateUnchecked (L.take (2 * k)) = some s ∧
      (∀ id, id ∈ s.openActions ↔
        (∃ a ∈ P.accepted (L.take (2 * k)), a.id = id ∧ a.kind = .action) ∧
          ∀ x ∈ P.accepted (L.take (2 * k)), ¬P.ClosesAction x id) ∧
      ∀ q, s.requestOpenActionCount[q]? = nonzero (s.openFor q).size) ∧
    (∀ x ∈ P.accepted L, ∀ y ∈ P.accepted L, ∀ id, P.ClosesAction x id → P.ClosesAction y id →
      x = y) ∧
    ∀ i (_ : i < L.length), L[i] ∈ P.accepted L → ∀ id, P.ClosesAction L[i] id →
      ∃ s q count, P.buildStateUnchecked (L.take i) = some s ∧ s.actionToRequest[id]? = some q ∧
        s.requestOpenActionCount[q]? = some count ∧ 0 < count := by
  obtain ⟨s, hv⟩ := accepts_iff.mp h
  refine ⟨fun k hk => ?_, hv.actionsInv.once, fun i hi hacc id hcl => ?_⟩
  · obtain ⟨t, ht⟩ := hv.take hk
    exact ⟨t, ht.run.build, ht.actionsInv.isOpen, ht.actionsInv.count⟩
  · obtain ⟨t, ht, hc⟩ := hv.accepted_check hi hacc
    obtain ⟨q, count, hreq, hcount, hpos, -⟩ := ht.actionsInv.counted (closesAction_open hc hcl)
    exact ⟨t, q, count, ht.run.build, hreq, hcount, hpos⟩

theorem sampleLog_openActions : sampleLog.length = 8 ∧
    ∃ s, reference.buildStateUnchecked (sampleLog.take 8) = some s ∧
      ∀ q, s.requestOpenActionCount[q]? = nonzero (s.openFor q).size := by
  obtain ⟨s, hs, -, hcount⟩ := (open_actions_exact sampleLog_accepts).1 4 (by decide)
  exact ⟨rfl, s, hs, hcount⟩

end Bellbook
