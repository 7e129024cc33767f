import Bellbook.Verify.Taint

/-!
# Live authority

Three maps of the state hold authority: the active capability of a key, the exact approval of a
subject hash, and the class approval of a class key; `activeRequests` holds the requests that can
still be served. `AuthorityInv` says what each of them means in terms of the accepted records.

* `action_authority`: what stands behind an accepted Action.
* `exact_approval_single_use`: an exact approval authorizes at most one record.
-/

namespace Bellbook

open Std

namespace Platform

variable (P : Platform)

/-- The record is a Capability with the key. -/
def Grants (c : Record) (key : CapabilityKey) : Prop :=
  c.kind = .capability ∧ ∃ d, P.decode CapabilityData c.data = some d ∧ d.key = key

/-- The record is an Approval with the payload. -/
def Approves (p : Record) (d : ApprovalData) : Prop :=
  p.kind = .approval ∧ P.decode ApprovalData p.data = some d

/-- The record is a closing Response or a Refusal of the request. -/
def Closes (x : Record) (requestId : RecordId) : Prop :=
  (x.kind = .response ∧ ∃ d, P.decode ResponseData x.data = some d ∧ d.requestId = requestId ∧
      d.closesRequest = true) ∨
    (x.kind = .refusal ∧ ∃ d, P.decode RefusalData x.data = some d ∧ d.targetKind = .request ∧
      d.targetId = requestId)

/-- What the authority maps of a state mean over the log. -/
structure AuthorityInv (L : List Record) (s : State) : Prop where
  capability : ∀ (key : CapabilityKey) (id : RecordId), s.activeCapabilities[key]? = some id →
    ∃ c ∈ P.accepted L, c.id = id ∧ P.Grants c key ∧
      ∀ c' ∈ P.accepted L, P.Grants c' key → c'.time ≤ c.time
  exact : ∀ (hash : Hash256) (id : RecordId), s.validApprovals[hash]? = some id →
    ∃ p ∈ P.accepted L, p.id = id ∧ ∃ d, P.Approves p d ∧ d.targetAction = some hash
  byClass : ∀ (key : ClassApprovalKey) (id : RecordId), s.classApprovals[key]? = some id →
    ∃ p ∈ P.accepted L, p.id = id ∧ ∃ d, P.Approves p d ∧ d.classKey = some key
  request : ∀ id ∈ s.activeRequests, (∃ q ∈ P.accepted L, q.id = id ∧ q.kind = .request) ∧
    ∀ x ∈ P.accepted L, ¬P.Closes x id
  closes : ∀ x ∈ P.accepted L, ∀ id, P.Closes x id → ∃ q ∈ P.accepted L, q.id = id

end Platform

variable {P : Platform} {rules : VerifierRules} {L : List Record} {s s' : State} {r : Record}

/-! ## What one fold does to the maps -/

/-- The subject hash under which an Action or a Selection looks for its exact approval. -/
def Platform.SubjectHash (P : Platform) (r : Record) (hash : Hash256) : Prop :=
  (r.kind = .action ∧ ∃ data, P.decode ActionData r.data = some data ∧
      P.actionHash r.author.id data = some hash) ∨
    (r.kind = .selection ∧ ∃ data, P.decode SelectionData r.data = some data ∧
      P.selectionApprovalSubjectHash r.author.id (findReplaceRef r.refs) data = some hash)

/-- A fold, as far as the authority maps can tell. -/
inductive AuthorityFold (P : Platform) (s : State) (r : Record) (s' : State) : Prop
  | capability (hk : r.kind = .capability) {d : CapabilityData}
      (hd : P.decode CapabilityData r.data = some d)
      (hcap : s'.activeCapabilities = s.activeCapabilities.insert d.key r.id)
      (hexact : s'.validApprovals = s.validApprovals) (hclass : s'.classApprovals = s.classApprovals)
  | approval {d : ApprovalData} (hd : P.Approves r d)
      (hcap : s'.activeCapabilities = s.activeCapabilities)
      (hexact : s'.validApprovals = insertOpt s.validApprovals d.targetAction r.id)
      (hclass : s'.classApprovals = insertOpt s.classApprovals d.classKey r.id)
  | retraction (hk : r.kind = .retraction) (target : RecordId)
      (hcap : s'.activeCapabilities = releaseSlot s.capabilityIndex s.activeCapabilities target)
      (hexact : s'.validApprovals = releaseSlot s.exactApprovalIndex s.validApprovals target)
      (hclass : s'.classApprovals = releaseSlot s.classApprovalIndex s.classApprovals target)
  | spend {hash : Hash256} (hh : P.SubjectHash r hash)
      (hcap : s'.activeCapabilities = s.activeCapabilities)
      (hexact : s'.validApprovals = s.spendApproval r hash)
      (hclass : s'.classApprovals = s.classApprovals)
  | other (hk : r.kind ≠ .capability ∧ r.kind ≠ .approval ∧ r.kind ≠ .action ∧ r.kind ≠ .selection)
      (hcap : s'.activeCapabilities = s.activeCapabilities)
      (hexact : s'.validApprovals = s.validApprovals) (hclass : s'.classApprovals = s.classApprovals)

theorem Folded.authority (h : Folded P s r s') : AuthorityFold P s r s' := by
  cases h with
  | capability hk hd => exact .capability hk hd rfl rfl rfl
  | approval hk hd => exact .approval ⟨hk, hd⟩ rfl rfl rfl
  | @retraction hk d hd => exact .retraction hk d.targetId rfl rfl rfl
  | action hk hd hh => exact .spend (.inl ⟨hk, _, hd, hh⟩) rfl rfl rfl
  | selection hk hd hh => exact .spend (.inr ⟨hk, _, hd, hh⟩) rfl rfl rfl
  | @refusal hk data =>
    obtain ⟨_, _, _, _, heq⟩ := s.foldRefusal_eq data
    exact .other (by simp [hk]) (by rw [heq]) (by rw [heq]) (by rw [heq])
  | @response hk data =>
    obtain ⟨_, _, _, heq⟩ := s.foldResponse_eq data
    exact .other (by simp [hk]) (by rw [heq]) (by rw [heq]) (by rw [heq])
  | @requirement hk data =>
    obtain ⟨_, _, heq⟩ := s.foldRequirement_eq r data
    exact .other (by simp [hk]) (by rw [heq]) (by rw [heq]) (by rw [heq])
  | inert hk => exact .other (by rcases hk with hk | hk | hk <;> simp [hk]) rfl rfl rfl
  | request hk | result hk | summary hk | usage hk | plan hk =>
    exact .other (by simp [hk]) rfl rfl rfl

namespace AuthorityFold

/-- A slot of the capability map after a fold. -/
theorem capability_slot (h : AuthorityFold P s r s') {key : CapabilityKey} {id : RecordId}
    (hid : s'.activeCapabilities[key]? = some id) :
    (P.Grants r key ∧ id = r.id) ∨ (¬P.Grants r key ∧ s.activeCapabilities[key]? = some id) := by
  have hother (hk : r.kind ≠ .capability) : ¬P.Grants r key := fun hg => hk hg.1
  cases h with
  | @capability hk d hd hcap =>
    rcases of_getElem?_insert (hcap ▸ hid) with ⟨heq, hkey⟩ | ⟨hne, hid⟩
    · exact .inl ⟨⟨hk, d, hd, hkey⟩, heq⟩
    · refine .inr ⟨fun ⟨_, d', hd', hkey⟩ => hne ?_, hid⟩
      rw [hd] at hd'
      cases hd'
      exact hkey
  | approval hd hcap => exact .inr ⟨hother (by simp [hd.1]), hcap ▸ hid⟩
  | retraction hk target hcap =>
    exact .inr ⟨hother (by simp [hk]), of_getElem?_releaseSlot (hcap ▸ hid)⟩
  | spend hh hcap =>
    exact .inr ⟨hother (by rcases hh with ⟨hk, -⟩ | ⟨hk, -⟩ <;> simp [hk]), hcap ▸ hid⟩
  | other hk hcap => exact .inr ⟨hother hk.1, hcap ▸ hid⟩

/-- A slot of the exact approvals after a fold. -/
theorem exact_slot (h : AuthorityFold P s r s') {hash : Hash256} {id : RecordId}
    (hid : s'.validApprovals[hash]? = some id) :
    (id = r.id ∧ ∃ d, P.Approves r d ∧ d.targetAction = some hash) ∨
      s.validApprovals[hash]? = some id := by
  cases h with
  | @approval d hd _ hexact =>
    exact (of_getElem?_insertOpt (hexact ▸ hid)).imp_left fun ⟨heq, hkey⟩ => ⟨heq, d, hd, hkey⟩
  | capability _ _ _ hexact => exact .inr (hexact ▸ hid)
  | retraction _ target _ hexact => exact .inr (of_getElem?_releaseSlot (hexact ▸ hid))
  | spend _ _ hexact => exact .inr (of_getElem?_spendApproval (hexact ▸ hid))
  | other _ _ hexact => exact .inr (hexact ▸ hid)

/-- A slot of the class approvals after a fold. -/
theorem class_slot (h : AuthorityFold P s r s') {key : ClassApprovalKey} {id : RecordId}
    (hid : s'.classApprovals[key]? = some id) :
    (id = r.id ∧ ∃ d, P.Approves r d ∧ d.classKey = some key) ∨
      s.classApprovals[key]? = some id := by
  cases h with
  | @approval d hd _ _ hclass =>
    exact (of_getElem?_insertOpt (hclass ▸ hid)).imp_left fun ⟨heq, hkey⟩ => ⟨heq, d, hd, hkey⟩
  | capability _ _ _ _ hclass => exact .inr (hclass ▸ hid)
  | retraction _ target _ _ hclass => exact .inr (of_getElem?_releaseSlot (hclass ▸ hid))
  | spend _ _ _ hclass => exact .inr (hclass ▸ hid)
  | other _ _ _ hclass => exact .inr (hclass ▸ hid)

end AuthorityFold

theorem closeRequest_active {requestId id : RecordId}
    (h : id ∈ (s.closeRequest requestId).activeRequests) : id ≠ requestId ∧ id ∈ s.activeRequests := by
  simp only [State.closeRequest, ExtTreeSet.mem_erase] at h
  exact ⟨fun heq => h.1 (LawfulEqOrd.compare_eq_iff_eq.mpr heq.symm), h.2⟩

/-- An active request after a fold. -/
theorem Folded.request_active (h : Folded P s r s') {id : RecordId}
    (hid : id ∈ s'.activeRequests) :
    (id = r.id ∧ r.kind = .request) ∨ (id ∈ s.activeRequests ∧ ¬P.Closes r id) := by
  have hother (hk : r.kind ≠ .response ∧ r.kind ≠ .refusal) : ¬P.Closes r id := fun hc =>
    hc.elim (fun h => hk.1 h.1) (fun h => hk.2 h.1)
  cases h with
  | request hk =>
    rcases Worklist.mem_insert_iff.mp hid with rfl | hid
    · exact .inl ⟨rfl, hk⟩
    · exact .inr ⟨hid, hother (by simp [hk])⟩
  | @refusal hk data hd =>
    right
    have hcloses (hc : P.Closes r id) : data.targetKind = .request ∧ data.targetId = id := by
      rcases hc with ⟨hk', -⟩ | ⟨-, d, hd', hc⟩
      · simp [hk] at hk'
      · rw [hd] at hd'
        cases hd'
        exact hc
    unfold State.foldRefusal at hid
    cases htarget : data.targetKind <;> simp only [htarget] at hid hcloses
    case request =>
      obtain ⟨hne, hid⟩ := closeRequest_active hid
      exact ⟨hid, fun hc => hne (hcloses hc).2.symm⟩
    case action => exact ⟨hid, fun hc => by simpa using (hcloses hc).1⟩
    case verifiedEffect => exact ⟨hid, fun hc => by simpa using (hcloses hc).1⟩
  | @response hk data hd =>
    right
    have hcloses (hc : P.Closes r id) : data.closesRequest = true ∧ data.requestId = id := by
      rcases hc with ⟨-, d, hd', hreq, hcl⟩ | ⟨hk', -⟩
      · rw [hd] at hd'
        cases hd'
        exact ⟨hcl, hreq⟩
      · simp [hk] at hk'
    unfold State.foldResponse at hid
    cases hcl : data.closesRequest <;> simp only [hcl] at hid hcloses
    · exact ⟨hid, fun hc => by simpa using (hcloses hc).1⟩
    · obtain ⟨hne, hid⟩ := closeRequest_active hid
      exact ⟨hid, fun hc => hne (hcloses hc).2.symm⟩
  | @requirement hk data =>
    obtain ⟨_, _, heq⟩ := s.foldRequirement_eq r data
    exact .inr ⟨by simpa [heq] using hid, hother (by simp [hk])⟩
  | inert hk => exact .inr ⟨hid, hother (by rcases hk with hk | hk | hk <;> simp [hk])⟩
  | action hk | result hk | capability hk | approval hk | summary hk | usage hk | plan hk
  | retraction hk | selection hk => exact .inr ⟨hid, hother (by simp [hk])⟩

/-- A record that closes a request names an active one. -/
theorem closes_active {prior : Prior} (hc : P.checkSubject rules prior s r = none) {id : RecordId}
    (hcl : P.Closes r id) : id ∈ s.activeRequests := by
  have hkind := (checkSubject_passes hc).kind
  rcases hcl with ⟨hk, d, hd, rfl, -⟩ | ⟨hk, d, hd, htarget, rfl⟩
  · simp only [Platform.checkKindSpecific, hk, Platform.checkResponse, hd, orReject_eq_none,
      Option.some.injEq, exists_eq_left', withActiveRequest, orElse_none_iff, rejectIf_eq_none,
      not_not] at hkind
    exact hkind.1
  · simp only [Platform.checkKindSpecific, hk, Platform.checkRefusal, hd, orReject_eq_none,
      Option.some.injEq, exists_eq_left', htarget, orElse_none_iff, rejectIf_eq_none,
      not_not] at hkind
    obtain ⟨t, -, ⟨-, hactive, -⟩, -⟩ := hkind
    exact hactive

/-! ## The invariant -/

theorem Verified.time_lt (h : Verified P rules L s) {x : Record} (hx : x ∈ L) :
    x.time.toNat ≤ L.length := by
  obtain ⟨i, hi, rfl⟩ := List.mem_iff_getElem.mp hx
  rw [h.time_eq hi]
  omega

theorem Verified.authorityInv (h : Verified P rules L s) : P.AuthorityInv L s := by
  induction h using Verified.rec_snoc with
  | nil => constructor <;> simp [State.empty, Platform.accepted]
  | @snoc L s r v s' hL hall hstep ih =>
    rcases hL.run.step_cases hstep with ⟨hacc, -, rfl⟩ | ⟨hacc, hc, t, hf, rfl⟩
    · constructor <;> rw [hacc]
      exacts [ih.capability, ih.exact, ih.byClass, ih.request, ih.closes]
    · rw [checkRecord_subject hstep.subject] at hc
      have hfold := hf.authority
      obtain ⟨-, -, htime, -⟩ := Verified.snoc_iff.mp hall
      have hlater {c : Record} (hcL : c ∈ P.accepted L) : c.time ≤ r.time := by
        rw [UInt64.le_iff_toNat_le, htime]
        have := hL.time_lt (mem_of_mem_accepted hcL)
        omega
      constructor <;> rw [hacc]
      case capability =>
        intro key id hid
        rcases hfold.capability_slot hid with ⟨hg, rfl⟩ | ⟨hg, hid⟩
        · refine ⟨r, by simp, rfl, hg, fun c' hc' _ => ?_⟩
          rcases List.mem_append.mp hc' with hc' | hc'
          · exact hlater hc'
          · rw [List.mem_singleton.mp hc']
            exact UInt64.le_refl _
        · obtain ⟨c, hcm, rfl, hgc, hlast⟩ := ih.capability key id hid
          refine ⟨c, List.mem_append_left _ hcm, rfl, hgc, fun c' hc' hg' => ?_⟩
          rcases List.mem_append.mp hc' with hc' | hc'
          · exact hlast c' hc' hg'
          · rw [List.mem_singleton.mp hc'] at hg'
            exact absurd hg' hg
      case exact =>
        intro hash id hid
        rcases hfold.exact_slot hid with ⟨rfl, hd⟩ | hid
        · exact ⟨r, by simp, rfl, hd⟩
        · obtain ⟨p, hp, h⟩ := ih.exact hash id hid
          exact ⟨p, List.mem_append_left _ hp, h⟩
      case byClass =>
        intro key id hid
        rcases hfold.class_slot hid with ⟨rfl, hd⟩ | hid
        · exact ⟨r, by simp, rfl, hd⟩
        · obtain ⟨p, hp, h⟩ := ih.byClass key id hid
          exact ⟨p, List.mem_append_left _ hp, h⟩
      case request =>
        intro id hid
        rcases hf.request_active hid with ⟨rfl, hk⟩ | ⟨hid, hnot⟩
        · refine ⟨⟨r, by simp, rfl, hk⟩, fun x hx hcl => ?_⟩
          rcases List.mem_append.mp hx with hx | hx
          · -- an earlier record could only close a request accepted before it
            obtain ⟨q, hq, hqid⟩ := ih.closes x hx _ hcl
            obtain ⟨hqL, hqk⟩ := hL.run.mem_of_mem_accepted hq
            exact hL.run.fresh hstep hqL hqk hqid
          · rw [List.mem_singleton.mp hx] at hcl
            rcases hcl with ⟨hk', -⟩ | ⟨hk', -⟩ <;> simp [hk] at hk'
        · obtain ⟨⟨q, hq, h⟩, hopen⟩ := ih.request id hid
          refine ⟨⟨q, List.mem_append_left _ hq, h⟩, fun x hx => ?_⟩
          rcases List.mem_append.mp hx with hx | hx
          · exact hopen x hx
          · rw [List.mem_singleton.mp hx]
            exact hnot
      case closes =>
        intro x hx id hcl
        rcases List.mem_append.mp hx with hx | hx
        · obtain ⟨q, hq, hqid⟩ := ih.closes x hx id hcl
          exact ⟨q, List.mem_append_left _ hq, hqid⟩
        · rw [List.mem_singleton.mp hx] at hcl
          obtain ⟨⟨q, hq, hqid, -⟩, -⟩ := ih.request id (closes_active hc hcl)
          exact ⟨q, List.mem_append_left _ hq, hqid⟩

/-! ## What the check of an Action establishes -/

theorem expired_eq_false {t : Time} {expiry : Option Time} :
    expired t expiry = false ↔ ∀ e, expiry = some e → t < e := by
  cases expiry with
  | none => simp [expired]
  | some e => simp [expired, UInt64.lt_iff_toNat_lt, UInt64.le_iff_toNat_le]

theorem usableApproval_eq_some {prior : Prior} {slot : Option RecordId} {id : RecordId}
    {bytes : Bytes} (h : usableApproval prior s slot = some (id, bytes)) :
    slot = some id ∧ s.usable id = true ∧ ∃ p, prior.find id = some p ∧ p.data = bytes := by
  unfold usableApproval at h
  obtain ⟨id', hslot, h⟩ := Option.bind_eq_some_iff.mp h
  obtain ⟨p, hp, h⟩ := Option.bind_eq_some_iff.mp h
  split at h
  · next hu =>
    cases h
    exact ⟨hslot, hu, p, hp, rfl⟩
  · cases h

/-- An approval that `check_approval_for_action` resolves to, with the map that held it. -/
structure ResolvedApproval (P : Platform) (prior : Prior) (s : State) (a : Record)
    (data : ActionData) (id : RecordId) (p : Record) (d : ApprovalData) : Prop where
  find : prior.find id = some p
  payload : P.decode ApprovalData p.data = some d
  usable : s.usable id = true
  unexpired : expired a.time d.expiry = false
  slot : (∃ hash, P.actionHash a.author.id data = some hash ∧ s.validApprovals[hash]? = some id ∧
      d.actorId = some a.author.id ∧ d.scope = data.scope) ∨
    ∃ actor : Option ActorId, (actor = some a.author.id ∨ actor = none) ∧
      s.classApprovals[((data.actionClass, data.scope, actor) : ClassApprovalKey)]? = some id

theorem checkClassApproval_eq_ok {prior : Prior} {data : ActionData} {actor : Option ActorId}
    (hactor : actor = some r.author.id ∨ actor = none) {next : Except ReasonCode RecordId}
    {id : RecordId}
    (h : P.checkClassApproval prior s r (data.actionClass, data.scope, actor) next = .ok id) :
    (∃ p d, ResolvedApproval P prior s r data id p d) ∨ next = .ok id := by
  unfold Platform.checkClassApproval at h
  split at h
  · exact .inr h
  next id' bytes husable =>
  obtain ⟨hslot, hu, p, hp, rfl⟩ := usableApproval_eq_some husable
  split at h
  · cases h
  next d hd =>
  split at h
  · cases h
  next hexp =>
  cases h
  exact .inl ⟨p, d, hp, hd, hu, by simpa using hexp, .inr ⟨actor, hactor, hslot⟩⟩

theorem checkApprovalForAction_eq_ok {prior : Prior} {data : ActionData} {id : RecordId}
    (h : P.checkApprovalForAction prior s r data = .ok id) :
    ∃ p d, ResolvedApproval P prior s r data id p d := by
  unfold Platform.checkApprovalForAction at h
  split at h
  · cases h
  next hash hhash =>
  have hclass (h : P.checkClassApproval prior s r (data.actionClass, data.scope, some r.author.id)
      (P.checkClassApproval prior s r (data.actionClass, data.scope, none)
        (.error .approvalMissing)) = .ok id) : ∃ p d, ResolvedApproval P prior s r data id p d := by
    rcases checkClassApproval_eq_ok (.inl rfl) h with h | h
    · exact h
    · exact (checkClassApproval_eq_ok (.inr rfl) h).resolve_right (by simp)
  simp only at h
  split at h
  · exact hclass h
  next id' bytes husable =>
  obtain ⟨hslot, hu, p, hp, rfl⟩ := usableApproval_eq_some husable
  split at h
  · cases h
  next d hd =>
  split at h
  · next hmatch =>
    cases h
    exact ⟨p, d, hp, hd, hu, hmatch.2.2, .inl ⟨hash, hhash, hslot, hmatch.1, hmatch.2.1⟩⟩
  · exact hclass h

/-- The records and payloads an Action that passes is backed by. -/
structure ActionBacking (P : Platform) (prior : Prior) (s : State) (a : Record)
    (data : ActionData) (request : Record) (requestData : RequestData) (capId : RecordId)
    (cap : Record) (capData : CapabilityData) : Prop where
  payload : P.decode ActionData a.data = some data
  active : data.requestId ∈ s.activeRequests
  findRequest : prior.find data.requestId = some request
  thread : request.thread = a.thread
  requestPayload : P.decode RequestData request.data = some requestData
  scope : data.scope = requestData.scope
  slot : s.activeCapabilities[((a.author.id, data.actionClass, data.scope) : CapabilityKey)]? =
    some capId
  findCap : prior.find capId = some cap
  stands : capId ∉ s.retractedRecords ∧ capId ∉ s.taintedRecords
  capPayload : P.decode CapabilityData cap.data = some capData
  unexpired : expired a.time capData.expiry = false
  named : a.hasRequireRef capId = true
  mode : capData.mode = .auto ∨ (capData.mode = .ask ∧
    ∃ id, P.checkApprovalForAction prior s a data = .ok id ∧ a.hasRequireRef id = true)

theorem checkAction_eq_none {prior : Prior} (h : P.checkAction prior s r = none) :
    ∃ data request requestData capId cap capData,
      ActionBacking P prior s r data request requestData capId cap capData := by
  simp only [Platform.checkAction, withActiveRequest, orReject_eq_none, orElse_none_iff,
    rejectIf_eq_none, not_not, not_or, Bool.not_eq_true] at h
  obtain ⟨data, hd, hactive, request, hreq, ⟨hthread, -⟩, rd, hrd, hscope, capId, hslot, cap, hcap,
    hstands, cd, hcd, hexp, hauth⟩ := h
  refine ⟨data, request, rd, capId, cap, cd, ?_⟩
  cases hm : cd.mode with
  | deny => simp [hm, Platform.resolveAuthority] at hauth
  | auto =>
    simp only [hm, Platform.resolveAuthority, orElse_none_iff, rejectIf_eq_none,
      Bool.not_eq_false] at hauth
    exact ⟨hd, hactive, hreq, hthread, hrd, hscope, hslot, hcap, hstands, hcd, hexp, hauth.1,
      .inl hm⟩
  | ask =>
    simp only [hm, Platform.resolveAuthority] at hauth
    cases hok : P.checkApprovalForAction prior s r data with
    | error e => simp [hok, Except.map] at hauth
    | ok id =>
      simp only [hok, Except.map, orElse_none_iff, rejectIf_eq_none, Bool.not_eq_false] at hauth
      exact ⟨hd, hactive, hreq, hthread, hrd, hscope, hslot, hcap, hstands, hcd, hexp, hauth.1,
        .inr ⟨hm, id, hok, hauth.2⟩⟩

/-! ## Authority over whole runs -/

namespace Platform

variable (P : Platform)

/-- Neither retracted nor tainted by the records of the log. -/
def StandsIn (L : List Record) (x : Record) : Prop := ¬P.RetractedIn L x.id ∧ ¬P.TaintedIn L x

/-- `c` is the live capability behind the Action `a`, over the records before it. -/
structure LiveCapability (rules : VerifierRules) (before : List Record) (a : Record)
    (data : ActionData) (c : Record) (d : CapabilityData) : Prop where
  accepted : c ∈ P.accepted before
  kind : c.kind = .capability
  payload : P.decode CapabilityData c.data = some d
  key : d.key = (a.author.id, data.actionClass, data.scope)
  author : rules.authorRoles[c.author.id]? = some .user ∨
    rules.authorRoles[c.author.id]? = some .system
  last : ∀ c' ∈ P.accepted before, P.Grants c' d.key → c'.time ≤ c.time
  stands : P.StandsIn before c
  unexpired : ∀ e, d.expiry = some e → a.time < e
  mode : d.mode = .auto ∨ d.mode = .ask
  named : a.hasRequireRef c.id = true

/-- `p` is a live approval of the Action `a`, over the records before it. -/
structure LiveApproval (rules : VerifierRules) (before : List Record) (a : Record)
    (data : ActionData) (p : Record) (d : ApprovalData) : Prop where
  accepted : p ∈ P.accepted before
  kind : p.kind = .approval
  payload : P.decode ApprovalData p.data = some d
  author : rules.authorRoles[p.author.id]? = some .user
  stands : P.StandsIn before p
  unexpired : ∀ e, d.expiry = some e → a.time < e
  named : a.hasRequireRef p.id = true
  covers : (d.targetAction = P.actionHash a.author.id data ∧ d.targetAction.isSome = true ∧
      d.actorId = some a.author.id ∧ d.scope = data.scope) ∨
    (d.targetAction = none ∧ d.actionClass = some data.actionClass ∧ d.scope = data.scope ∧
      (d.actorId = some a.author.id ∨ d.actorId = none))

/-- `q` is the open request the Action `a` serves, over the records before it. -/
structure OpenRequest (before : List Record) (a : Record) (data : ActionData) (q : Record)
    (d : RequestData) : Prop where
  accepted : q ∈ P.accepted before
  id : q.id = data.requestId
  kind : q.kind = .request
  payload : P.decode RequestData q.data = some d
  thread : q.thread = a.thread
  scope : d.scope = data.scope
  unclosed : ∀ x ∈ P.accepted before, ¬P.Closes x q.id

end Platform

/-- An id a state finds standing belongs to a record that stands. -/
theorem Verified.standsIn (h : Verified P rules L s) {x : Record} (hx : x ∈ P.accepted L)
    (hret : x.id ∉ s.retractedRecords) (htaint : x.id ∉ s.taintedRecords) : P.StandsIn L x := by
  have hexact := h.run.taintExact
  exact ⟨fun hr => hret ((hexact.retracted _).mpr hr),
    fun ht => htaint ((hexact.tainted _).mpr ⟨x, hx, rfl, ht⟩)⟩

/-- An accepted record is by a registered author, in a role its kind allows. -/
theorem Verified.registered (h : Verified P rules L s) (hs : P.HashSound L) {x : Record}
    (hx : x ∈ P.accepted L) :
    rules.authorRoles[x.author.id]? = some x.author.type ∧
      x.author.type ∈ allowedAuthorTypes x.kind := by
  obtain ⟨i, hi, rfl⟩ := List.mem_iff_getElem.mp (mem_of_mem_accepted hx)
  obtain ⟨t, -, hc⟩ := h.accepted_at hs hi hx
  exact (checkSubject_passes hc).registered (h.run.mem_of_mem_accepted hx).2

/-- An accepted Approval is of the exact form, with an actor, or of the class form. -/
theorem Verified.approval_form (h : Verified P rules L s) (hs : P.HashSound L) {p : Record}
    (hp : p ∈ P.accepted L) {d : ApprovalData} (hd : P.Approves p d) :
    d.targetAction.isSome ≠ d.actionClass.isSome := by
  obtain ⟨i, hi, rfl⟩ := List.mem_iff_getElem.mp (mem_of_mem_accepted hp)
  obtain ⟨t, -, hc⟩ := h.accepted_at hs hi hp
  have hkind := (checkSubject_passes hc).kind
  simp only [Platform.checkKindSpecific, hd.1, Platform.checkApproval, hd.2, orReject_eq_none,
    Option.some.injEq, exists_eq_left', orElse_none_iff, rejectIf_eq_none] at hkind
  exact hkind.1

section

variable (hv : Verified P rules L s) (hs : P.HashSound L)
include hv hs

theorem ActionBacking.liveCapability {a request cap : Record} {data : ActionData}
    {requestData : RequestData} {capId : RecordId} {capData : CapabilityData}
    (hb : ActionBacking P (priorView L) s a data request requestData capId cap capData) :
    P.LiveCapability rules L a data cap capData := by
  obtain ⟨c, hc, rfl, ⟨hk, d, hd, hkey⟩, hlast⟩ := hv.authorityInv.capability _ _ hb.slot
  obtain rfl : c = cap := Option.some.inj
    (((hv.find_eq_some hs).mpr ⟨mem_of_mem_accepted hc, rfl⟩).symm.trans hb.findCap)
  obtain rfl : d = capData := Option.some.inj (hd.symm.trans hb.capPayload)
  obtain ⟨hrole, hallowed⟩ := hv.registered hs hc
  refine ⟨hc, hk, hd, hkey, ?_, hkey ▸ hlast, hv.standsIn hc hb.stands.1 hb.stands.2,
    expired_eq_false.mp hb.unexpired, hb.mode.imp_right And.left, hb.named⟩
  rw [hrole]
  rw [hk] at hallowed
  simpa [allowedAuthorTypes] using hallowed

theorem ResolvedApproval.liveApproval {a p : Record} {data : ActionData} {id : RecordId}
    {d : ApprovalData} (hr : ResolvedApproval P (priorView L) s a data id p d)
    (hnamed : a.hasRequireRef id = true) : P.LiveApproval rules L a data p d := by
  have hinv := hv.authorityInv
  -- the record the maps stand for is the one that was looked up
  have hsame {q : Record} (hq : q ∈ P.accepted L) (hid : q.id = id) : q = p := Option.some.inj
    (((hv.find_eq_some hs).mpr ⟨mem_of_mem_accepted hq, hid⟩).symm.trans hr.find)
  obtain ⟨-, hret, htaint⟩ := State.usable_iff.mp hr.usable
  have hlive (hp : p ∈ P.accepted L) (hid : p.id = id) (happ : P.Approves p d)
      (hcovers : (d.targetAction = P.actionHash a.author.id data ∧ d.targetAction.isSome = true ∧
          d.actorId = some a.author.id ∧ d.scope = data.scope) ∨
        (d.targetAction = none ∧ d.actionClass = some data.actionClass ∧ d.scope = data.scope ∧
          (d.actorId = some a.author.id ∨ d.actorId = none))) :
      P.LiveApproval rules L a data p d := by
    subst hid
    obtain ⟨hrole, hallowed⟩ := hv.registered hs hp
    rw [happ.1] at hallowed
    refine ⟨hp, happ.1, happ.2, ?_, hv.standsIn hp hret htaint, expired_eq_false.mp hr.unexpired,
      hnamed, hcovers⟩
    rw [hrole]
    simpa [allowedAuthorTypes] using hallowed
  rcases hr.slot with ⟨hash, hhash, hslot, hactor, hscope⟩ | ⟨actor, hactor, hslot⟩
  · obtain ⟨q, hq, hid, d', happ, htarget⟩ := hinv.exact _ _ hslot
    obtain rfl := hsame hq hid
    obtain rfl : d' = d := Option.some.inj (happ.2.symm.trans hr.payload)
    exact hlive hq hid happ (.inl ⟨by rw [htarget, hhash], by simp [htarget], hactor, hscope⟩)
  · obtain ⟨q, hq, hid, d', happ, hclass⟩ := hinv.byClass _ _ hslot
    obtain rfl := hsame hq hid
    obtain rfl : d' = d := Option.some.inj (happ.2.symm.trans hr.payload)
    obtain ⟨cls, hcls, hkey⟩ := Option.map_eq_some_iff.mp hclass
    simp only [Prod.mk.injEq] at hkey
    obtain ⟨rfl, hscope, rfl⟩ := hkey
    have hform := hv.approval_form hs hq happ
    exact hlive hq hid happ (.inr ⟨by simpa [hcls] using hform, hcls, hscope, hactor⟩)

theorem ActionBacking.openRequest {a request cap : Record} {data : ActionData}
    {requestData : RequestData} {capId : RecordId} {capData : CapabilityData}
    (hb : ActionBacking P (priorView L) s a data request requestData capId cap capData) :
    P.OpenRequest L a data request requestData := by
  obtain ⟨⟨q, hq, hid, hk⟩, hopen⟩ := hv.authorityInv.request _ hb.active
  obtain rfl : q = request := Option.some.inj
    (((hv.find_eq_some hs).mpr ⟨mem_of_mem_accepted hq, hid⟩).symm.trans hb.findRequest)
  exact ⟨hq, hid, hk, hb.requestPayload, hb.thread, hb.scope.symm, hid ▸ hopen⟩

end

/-- **No accepted Action without live authority.** Behind the Action at position `i` there are,
before it: its live capability, the last one with its key; in Ask mode a live approval; and the
open request it serves. -/
theorem action_authority (hs : P.HashSound L) (h : P.Accepts rules L) (i : Nat) (hi : i < L.length)
    (ha : L[i] ∈ P.accepted L) (hk : L[i].kind = .action) :
    ∃ data, P.decode ActionData L[i].data = some data ∧
      (∃ c d, P.LiveCapability rules (L.take i) L[i] data c d ∧
        (d.mode = .ask → ∃ p d', P.LiveApproval rules (L.take i) L[i] data p d')) ∧
      ∃ q d, P.OpenRequest (L.take i) L[i] data q d := by
  obtain ⟨s, hv⟩ := accepts_iff.mp h
  obtain ⟨t, ht, hc⟩ := hv.accepted_at hs hi ha
  have hkind := (checkSubject_passes hc).kind
  simp only [Platform.checkKindSpecific, hk] at hkind
  obtain ⟨data, request, rd, capId, cap, cd, hb⟩ := checkAction_eq_none hkind
  have hs' : P.HashSound (L.take i) := hs.mono (List.take_subset _ _)
  refine ⟨data, hb.payload, ⟨cap, cd, hb.liveCapability ht hs', fun hask => ?_⟩, request, rd,
    hb.openRequest ht hs'⟩
  rcases hb.mode with hauto | ⟨-, id, hok, hnamed⟩
  · rw [hauto] at hask
    cases hask
  · obtain ⟨p, d, hr⟩ := checkApprovalForAction_eq_ok hok
    exact ⟨p, d, hr.liveApproval ht hs' hnamed⟩

theorem sampleAction_authority :
    ∃ data, reference.decode ActionData sampleAction.data = some data ∧
      (∃ c d, reference.LiveCapability sampleRules (sampleLog.take 6) sampleAction data c d ∧
        (d.mode = .ask → ∃ p d',
          reference.LiveApproval sampleRules (sampleLog.take 6) sampleAction data p d')) ∧
      ∃ q d, reference.OpenRequest (sampleLog.take 6) sampleAction data q d :=
  action_authority sampleLog_hashSound sampleLog_accepts 6 (by decide) sampleAction_accepted rfl

end Bellbook
