import Bellbook.Lib.Slots
import Bellbook.Verify.Authority

/-!
# The closed form of the authority maps

Three maps of the state hold grants: capabilities by actor, class and scope, class approvals by class,
scope and actor, and exact approvals by subject hash. Each, with its reverse index, is a table of slots
(`Slots.Table`) and every accepted record is at most one event for it (`SlotView`): a Capability or an
Approval grants, a Retraction releases, and an Action or a Selection spends an exact approval.

So a slot is held by the last grant, unless that grant was retracted or spent. In particular the
retraction of a superseded grant changes no slot.
-/

namespace Bellbook

open Std

namespace Platform

variable (P : Platform)

/-- The record is a Retraction of the id. -/
def Retracts (x : Record) (id : RecordId) : Prop :=
  x.kind = .retraction ∧ ∃ d, P.decode RetractionData x.data = some d ∧ d.targetId = id

/-- The last accepted record with a property, and the accepted records after it. -/
def LastAccepted (L : List Record) (p : Record → Prop) (a : Record) (later : List Record) : Prop :=
  ∃ earlier, P.accepted L = earlier ++ a :: later ∧ p a ∧ ∀ x ∈ later, ¬p x

/-- The release by a Retraction. -/
def releaseEvent (κ : Type) (r : Record) : Option (Slots.Event κ RecordId) :=
  (P.decode RetractionData r.data).map fun d => .release d.targetId

/-- What a record does to the capability slots. -/
def capabilityEvent (r : Record) : Option (Slots.Event CapabilityKey RecordId) :=
  match r.kind with
  | .capability => (P.decode CapabilityData r.data).map fun d => .grant d.key r.id
  | .retraction => P.releaseEvent _ r
  | _ => none

/-- What a record does to the slots of the class approvals. -/
def classEvent (r : Record) : Option (Slots.Event ClassApprovalKey RecordId) :=
  match r.kind with
  | .approval => (P.decode ApprovalData r.data).bind fun d => d.classKey.map fun key => .grant key r.id
  | .retraction => P.releaseEvent _ r
  | _ => none

/-- What a record does to the slots of the exact approvals. -/
def exactEvent (r : Record) : Option (Slots.Event Hash256 RecordId) :=
  match r.kind with
  | .approval => (P.decode ApprovalData r.data).bind fun d =>
      d.targetAction.map fun hash => .grant hash r.id
  | .retraction => P.releaseEvent _ r
  | .action => (P.decode ActionData r.data).bind fun d =>
      (P.actionHash r.author.id d).map fun hash => .spend hash r.hasRequireRef
  | .selection => (P.decode SelectionData r.data).bind fun d =>
      (P.selectionApprovalSubjectHash r.author.id (findReplaceRef r.refs) d).map fun hash =>
        .spend hash r.hasRequireRef
  | _ => none

end Platform

variable {P : Platform} {rules : VerifierRules} {L : List Record} {s s' : State} {r : Record}

/-! ## What one fold does to the tables -/

/-- The three authority maps with their indexes. -/
structure GrantTables where
  capability : Slots.Table CapabilityKey RecordId
  byClass : Slots.Table ClassApprovalKey RecordId
  exact : Slots.Table Hash256 RecordId

def State.grantTables (s : State) : GrantTables where
  capability := ⟨s.activeCapabilities, s.capabilityIndex⟩
  byClass := ⟨s.classApprovals, s.classApprovalIndex⟩
  exact := ⟨s.validApprovals, s.exactApprovalIndex⟩

/-- A grant under a key that may be absent. -/
def grantOpt {κ : Type} [Ord κ] [TransOrd κ] (t : Slots.Table κ RecordId) (key : Option κ)
    (id : RecordId) : Slots.Table κ RecordId :=
  match key with
  | some k => t.step (.grant k id)
  | none => t

/-- A fold, as far as the tables can tell. -/
inductive GrantFold (P : Platform) (s : State) (r : Record) (s' : State) : Prop
  | capability (hk : r.kind = .capability) {d : CapabilityData}
      (hd : P.decode CapabilityData r.data = some d)
      (heq : s'.grantTables = { s.grantTables with
        capability := s.grantTables.capability.step (.grant d.key r.id) })
  | approval (hk : r.kind = .approval) {d : ApprovalData} (hd : P.decode ApprovalData r.data = some d)
      (heq : s'.grantTables = { s.grantTables with
        byClass := grantOpt s.grantTables.byClass d.classKey r.id
        exact := grantOpt s.grantTables.exact d.targetAction r.id })
  | retraction (hk : r.kind = .retraction) {d : RetractionData}
      (hd : P.decode RetractionData r.data = some d)
      (heq : s'.grantTables =
        { capability := s.grantTables.capability.step (.release d.targetId)
          byClass := s.grantTables.byClass.step (.release d.targetId)
          exact := s.grantTables.exact.step (.release d.targetId) })
  | spend {hash : Hash256} (hh : P.SubjectHash r hash)
      (heq : s'.grantTables = { s.grantTables with
        exact := s.grantTables.exact.step (.spend hash r.hasRequireRef) })
  | other (hk : r.kind ≠ .capability ∧ r.kind ≠ .approval ∧ r.kind ≠ .retraction ∧ r.kind ≠ .action ∧
      r.kind ≠ .selection) (heq : s'.grantTables = s.grantTables)

/-- Spending the approval of a hash, as an event. -/
theorem spend_eq (s : State) (r : Record) (hash : Hash256) :
    (⟨s.spendApproval r hash, s.spendApprovalIndex r hash⟩ : Slots.Table Hash256 RecordId) =
      s.grantTables.exact.step (.spend hash r.hasRequireRef) := by
  have hconsumed : s.consumedApproval r hash = s.validApprovals[hash]?.filter r.hasRequireRef := rfl
  simp only [State.spendApproval, State.spendApprovalIndex, Slots.Table.step, State.grantTables,
    hconsumed]
  cases s.validApprovals[hash]?.filter r.hasRequireRef <;> rfl

theorem grantOpt_eq {κ : Type} [Ord κ] [TransOrd κ] (active : ExtTreeMap κ RecordId)
    (index : IdMap κ) (key : Option κ) (id : RecordId) :
    (⟨insertOpt active key id, insertVal index id key⟩ : Slots.Table κ RecordId) =
      grantOpt ⟨active, index⟩ key id := by
  cases key <;> rfl

theorem Folded.grants (h : Folded P s r s') : GrantFold P s r s' := by
  cases h with
  | capability hk hd => exact .capability hk hd rfl
  | approval hk hd =>
    refine .approval hk hd ?_
    simp only [State.grantTables, State.foldApproval, grantOpt_eq]
  | retraction hk hd => exact .retraction hk hd rfl
  | action hk hd hh =>
    refine .spend (.inl ⟨hk, _, hd, hh⟩) ?_
    rw [← spend_eq]
    rfl
  | selection hk hd hh =>
    refine .spend (.inr ⟨hk, _, hd, hh⟩) ?_
    rw [← spend_eq]
    rfl
  | refusal hk hd =>
    refine .other (by simp [hk]) ?_
    obtain ⟨_, _, _, _, heq⟩ := State.foldRefusal_eq s ‹RefusalData›
    rw [heq]
    rfl
  | response hk hd =>
    refine .other (by simp [hk]) ?_
    obtain ⟨_, _, _, heq⟩ := State.foldResponse_eq s ‹ResponseData›
    rw [heq]
    rfl
  | requirement hk hd =>
    refine .other (by simp [hk]) ?_
    obtain ⟨_, _, heq⟩ := State.foldRequirement_eq s r ‹RequirementData›
    rw [heq]
    rfl
  | inert hk => exact .other (by rcases hk with hk | hk | hk <;> simp [hk]) rfl
  | request hk => exact .other (by simp [hk]) rfl
  | result hk _ => exact .other (by simp [hk]) rfl
  | summary hk _ _ => exact .other (by simp [hk]) rfl
  | usage hk _ => exact .other (by simp [hk]) rfl
  | plan hk _ => exact .other (by simp [hk]) rfl

/-! ## The three views -/

/-- One authority map of the state as a table of slots, with the event each record is for it. -/
structure SlotView (P : Platform) (κ : Type) [Ord κ] [TransOrd κ] [LawfulEqOrd κ] where
  table : GrantTables → Slots.Table κ RecordId
  event : Record → Option (Slots.Event κ RecordId)
  empty : table State.empty.grantTables = {}
  fold : ∀ {s r s'}, GrantFold P s r s' → table s'.grantTables =
    (event r).toList.foldl Slots.Table.step (table s.grantTables)
  grantee : ∀ {r key id}, event r = some (.grant key id) → id = r.id
  release : ∀ {r id}, event r = some (.release id) ↔ P.Retracts r id

theorem releaseEvent_eq_some {κ : Type} {id : RecordId} (hk : r.kind = .retraction) :
    P.releaseEvent κ r = some (.release id) ↔ P.Retracts r id := by
  simp [Platform.releaseEvent, Platform.Retracts, hk]

theorem not_retracts {id : RecordId} (hk : r.kind ≠ .retraction) : ¬P.Retracts r id := fun h => hk h.1

theorem not_grant_of_releaseEvent {κ : Type} {key : κ} {id : RecordId} :
    P.releaseEvent κ r ≠ some (.grant key id) := by
  simp [Platform.releaseEvent]

def capabilityView (P : Platform) : SlotView P CapabilityKey where
  table := GrantTables.capability
  event := P.capabilityEvent
  empty := rfl
  fold {s r s'} h := by
    cases h with
    | capability hk hd heq => simp [heq, Platform.capabilityEvent, hk, hd]
    | approval hk hd heq => simp [heq, Platform.capabilityEvent, hk]
    | retraction hk hd heq => simp [heq, Platform.capabilityEvent, Platform.releaseEvent, hk, hd]
    | spend hh heq => rcases hh with ⟨hk, -⟩ | ⟨hk, -⟩ <;> simp [heq, Platform.capabilityEvent, hk]
    | other hk heq =>
      obtain ⟨hcap, -, hret, -⟩ := hk
      have hnone : P.capabilityEvent r = none := by
        unfold Platform.capabilityEvent
        split
        · exact absurd ‹_› hcap
        · exact absurd ‹_› hret
        · rfl
      rw [heq, hnone]
      rfl
  grantee {r key id} h := by
    unfold Platform.capabilityEvent at h
    split at h
    · obtain ⟨d, -, heq⟩ := Option.map_eq_some_iff.mp h
      cases heq
      rfl
    · exact absurd h not_grant_of_releaseEvent
    · cases h
  release {r id} := by
    unfold Platform.capabilityEvent
    split
    · next hk => exact iff_of_false (by simp) (not_retracts (by simp [hk]))
    · next hk => exact releaseEvent_eq_some hk
    · next _ hk => exact iff_of_false (by simp) (not_retracts hk)

def classView (P : Platform) : SlotView P ClassApprovalKey where
  table := GrantTables.byClass
  event := P.classEvent
  empty := rfl
  fold {s r s'} h := by
    cases h with
    | capability hk hd heq => simp [heq, Platform.classEvent, hk]
    | @approval hk d hd heq =>
      rw [heq]
      cases hkey : d.classKey <;> simp [Platform.classEvent, hk, hd, hkey, grantOpt]
    | retraction hk hd heq => simp [heq, Platform.classEvent, Platform.releaseEvent, hk, hd]
    | spend hh heq => rcases hh with ⟨hk, -⟩ | ⟨hk, -⟩ <;> simp [heq, Platform.classEvent, hk]
    | other hk heq =>
      obtain ⟨-, happ, hret, -⟩ := hk
      have hnone : P.classEvent r = none := by
        unfold Platform.classEvent
        split
        · exact absurd ‹_› happ
        · exact absurd ‹_› hret
        · rfl
      rw [heq, hnone]
      rfl
  grantee {r key id} h := by
    unfold Platform.classEvent at h
    split at h
    · obtain ⟨d, -, hd⟩ := Option.bind_eq_some_iff.mp h
      obtain ⟨key', -, heq⟩ := Option.map_eq_some_iff.mp hd
      cases heq
      rfl
    · exact absurd h not_grant_of_releaseEvent
    · cases h
  release {r id} := by
    unfold Platform.classEvent
    split
    · next hk => exact iff_of_false (by simp [Option.bind_eq_some_iff]) (not_retracts (by simp [hk]))
    · next hk => exact releaseEvent_eq_some hk
    · next _ hk => exact iff_of_false (by simp) (not_retracts hk)

def exactView (P : Platform) : SlotView P Hash256 where
  table := GrantTables.exact
  event := P.exactEvent
  empty := rfl
  fold {s r s'} h := by
    cases h with
    | capability hk hd heq => simp [heq, Platform.exactEvent, hk]
    | @approval hk d hd heq =>
      rw [heq]
      cases htarget : d.targetAction <;> simp [Platform.exactEvent, hk, hd, htarget, grantOpt]
    | retraction hk hd heq => simp [heq, Platform.exactEvent, Platform.releaseEvent, hk, hd]
    | spend hh heq =>
      rcases hh with ⟨hk, d, hd, hh⟩ | ⟨hk, d, hd, hh⟩
      · simp [heq, Platform.exactEvent, hk, hd, hh]
      · simp [heq, Platform.exactEvent, hk, hd, hh]
    | other hk heq =>
      obtain ⟨-, happ, hret, hact, hsel⟩ := hk
      have hnone : P.exactEvent r = none := by
        unfold Platform.exactEvent
        split
        · exact absurd ‹_› happ
        · exact absurd ‹_› hret
        · exact absurd ‹_› hact
        · exact absurd ‹_› hsel
        · rfl
      rw [heq, hnone]
      rfl
  grantee {r key id} h := by
    unfold Platform.exactEvent at h
    split at h
    · obtain ⟨d, -, hd⟩ := Option.bind_eq_some_iff.mp h
      obtain ⟨key', -, heq⟩ := Option.map_eq_some_iff.mp hd
      cases heq
      rfl
    · exact absurd h not_grant_of_releaseEvent
    · simp [Option.bind_eq_some_iff] at h
    · simp [Option.bind_eq_some_iff] at h
    · cases h
  release {r id} := by
    unfold Platform.exactEvent
    split
    · next hk => exact iff_of_false (by simp [Option.bind_eq_some_iff]) (not_retracts (by simp [hk]))
    · next hk => exact releaseEvent_eq_some hk
    · next hk => exact iff_of_false (by simp [Option.bind_eq_some_iff]) (not_retracts (by simp [hk]))
    · next hk => exact iff_of_false (by simp [Option.bind_eq_some_iff]) (not_retracts (by simp [hk]))
    · next _ hk _ _ => exact iff_of_false (by simp) (not_retracts hk)

/-! ## The tables of a log -/

section View

variable {κ : Type} [Ord κ] [TransOrd κ] [LawfulEqOrd κ] (V : SlotView P κ)

/-- The grantees of a list of records are among its ids. -/
theorem SlotView.grantees_sublist (A : List Record) :
    ((A.filterMap V.event).filterMap Slots.Event.grantee).Sublist (A.map Record.id) := by
  induction A with
  | nil => exact List.Sublist.refl _
  | cons a A ih =>
    rw [List.filterMap_cons, List.map_cons]
    cases hev : V.event a with
    | none => exact ih.cons _
    | some e =>
      rw [List.filterMap_cons]
      cases e with
      | grant key id =>
        obtain rfl := V.grantee hev
        exact ih.cons_cons _
      | release id => exact ih.cons _
      | spend key test => exact ih.cons _

theorem SlotView.nodup_grantees (h : Replays P rules L s) :
    (((P.accepted L).filterMap V.event).filterMap Slots.Event.grantee).Nodup :=
  h.nodup_accepted_ids.sublist (V.grantees_sublist _)

/-- The table is the run of the events of the records. -/
def SlotView.Tracks (A : List Record) (s : State) : Prop :=
  V.table s.grantTables = Slots.run (A.filterMap V.event)

/-- **The table of a log** is the run of its accepted records' events. -/
theorem SlotView.tracks (h : Verified P rules L s) : V.Tracks (P.accepted L) s := by
  apply Verified.accepted_induction _ _ _ h
  · exact fun _ hinv => hinv
  · exact V.empty
  · intro L s r v s' _ _ _ hf ih
    unfold SlotView.Tracks at ih ⊢
    rw [V.fold hf.grants, List.filterMap_append]
    show List.foldl _ (V.table s.grantTables) _ = _
    rw [ih, Slots.run, ← List.foldl_append]
    cases hev : V.event r <;> simp [Slots.run, hev]

theorem SlotView.table_eq (h : Verified P rules L s) :
    V.table s.grantTables = Slots.run ((P.accepted L).filterMap V.event) := V.tracks h

theorem SlotView.indexed (h : Verified P rules L s) : (V.table s.grantTables).Indexed := by
  rw [V.table_eq h]
  exact Slots.indexed_run (V.nodup_grantees h.run)

/-- A slot and the accepted record that holds it. -/
theorem SlotView.active_iff (h : Verified P rules L s) {key : κ} {id : RecordId} :
    (V.table s.grantTables).active[key]? = some id ↔
      ∃ earlier a later, P.accepted L = earlier ++ a :: later ∧ a.id = id ∧
        V.event a = some (.grant key a.id) ∧
        ∀ x ∈ later, ∀ e, V.event x = some e → ¬e.Ends key id := by
  rw [V.table_eq h, Slots.active_run_iff (V.nodup_grantees h.run)]
  constructor
  · rintro ⟨before, after, heq, hafter⟩
    obtain ⟨A₁, A', hA, hbefore, hrest⟩ := List.filterMap_eq_append_iff.mp heq
    obtain ⟨A₂, a, later, rfl, hnone, ha, hlater⟩ := List.filterMap_eq_cons_iff.mp hrest
    obtain rfl := V.grantee ha
    refine ⟨A₁ ++ A₂, a, later, by rw [hA, List.append_assoc], rfl, ha, fun x hx e he => ?_⟩
    refine hafter e ?_
    rw [← hlater]
    exact List.mem_filterMap.mpr ⟨x, hx, he⟩
  · rintro ⟨earlier, a, later, hA, rfl, ha, hlater⟩
    refine ⟨earlier.filterMap V.event, later.filterMap V.event, ?_, fun e he => ?_⟩
    · rw [hA, List.filterMap_append, List.filterMap_cons, ha]
    · obtain ⟨x, hx, hev⟩ := List.mem_filterMap.mp he
      exact hlater x hx e hev

end View

/-! ## Retractions come after what they retract -/

/-- The target of an accepted Retraction was accepted before it. -/
theorem retracts_accepted {prior : Prior} (hc : P.checkSubject rules prior s r = none) {id : RecordId}
    (h : P.Retracts r id) : id ∈ s.acceptedRecords := by
  obtain ⟨hk, d, hd, rfl⟩ := h
  have hkind := (checkSubject_passes hc).kind
  simp only [Platform.checkKindSpecific, hk, Platform.checkRetraction, hd, orReject_eq_none,
    orElse_none_iff, rejectIf_eq_none, not_not, Option.some.injEq, exists_eq_left'] at hkind
  obtain ⟨-, target, -, hacc, -⟩ := hkind
  exact hacc

/-- No record up to an accepted one retracts it. -/
theorem Verified.retracts_later (h : Verified P rules L s) {earlier later : List Record} {a x : Record}
    (hA : P.accepted L = earlier ++ a :: later) (hx : x ∈ P.accepted L) (hret : P.Retracts x a.id) :
    x ∈ later := by
  induction h using Verified.rec_snoc generalizing earlier later with
  | nil => simp [Platform.accepted] at hx
  | @snoc L s r v s' hL hall hstep ih =>
    rcases hL.run.step_cases hstep with ⟨hacc, -⟩ | ⟨hacc, hc, -⟩
    · rw [hacc] at hA hx
      exact ih hA hx
    · rw [checkRecord_subject hstep.subject] at hc
      have hfresh : r.id ∉ s.acceptedRecords := by
        intro hmem
        obtain ⟨y, hy, hid⟩ := hL.run.mem_acceptedRecords.mp hmem
        obtain ⟨hyL, hyk⟩ := hL.run.mem_of_mem_accepted hy
        exact hL.run.fresh hstep hyL hyk hid
      rw [hacc, List.mem_append, List.mem_singleton] at hx
      rw [hacc] at hA
      rcases List.eq_nil_or_concat later with rfl | ⟨later', y, rfl⟩
      · -- the last record is not yet accepted when it is checked, so nothing has retracted it
        obtain ⟨-, hlast⟩ := List.append_inj' hA rfl
        obtain rfl : r = a := List.singleton_inj.mp hlast
        rcases hx with hx | rfl
        · obtain ⟨hk, d, hd, htarget⟩ := hret
          have hmem := (hL.run.retracted r.id).mpr ⟨x, hx, hk, d, hd, htarget⟩
          exact absurd (hL.run.retracted_accepted hmem) hfresh
        · exact absurd (retracts_accepted hc hret) hfresh
      · rw [List.concat_eq_append, ← List.cons_append, ← List.append_assoc] at hA
        obtain ⟨hold, hlast⟩ := List.append_inj' hA rfl
        obtain rfl : r = y := List.singleton_inj.mp hlast
        rw [List.concat_eq_append, List.mem_append, List.mem_singleton]
        exact hx.imp (fun hx => ih hold hx) id

/-- After an accepted record, a Retraction of it is all it takes to be retracted. -/
theorem Verified.retracted_iff_later (h : Verified P rules L s) {earlier later : List Record}
    {a : Record} (hA : P.accepted L = earlier ++ a :: later) :
    a.id ∈ s.retractedRecords ↔ ∃ x ∈ later, P.Retracts x a.id := by
  rw [h.run.retracted]
  constructor
  · rintro ⟨x, hx, hret⟩
    exact ⟨x, h.retracts_later hA hx hret, hret⟩
  · rintro ⟨x, hx, hret⟩
    exact ⟨x, by rw [hA]; simp [hx], hret⟩

/-! ## The closed form -/

namespace Platform

variable (P : Platform)

/-- The record is an Approval of the class key. -/
def ApprovesClass (p : Record) (key : ClassApprovalKey) : Prop :=
  ∃ d, P.Approves p d ∧ d.classKey = some key

/-- The record is an Approval of the subject hash. -/
def ApprovesExactly (p : Record) (hash : Hash256) : Prop :=
  ∃ d, P.Approves p d ∧ d.targetAction = some hash

/-- What the authority maps and their indexes hold, in terms of the log. -/
structure AuthorityForm (L : List Record) (s : State) : Prop where
  capability : ∀ (key : CapabilityKey) (id : RecordId), s.activeCapabilities[key]? = some id ↔
    ∃ c later, P.LastAccepted L (P.Grants · key) c later ∧ c.id = id ∧ id ∉ s.retractedRecords
  byClass : ∀ (key : ClassApprovalKey) (id : RecordId), s.classApprovals[key]? = some id ↔
    ∃ p later, P.LastAccepted L (P.ApprovesClass · key) p later ∧ p.id = id ∧
      id ∉ s.retractedRecords
  exact : ∀ (hash : Hash256) (id : RecordId), s.validApprovals[hash]? = some id ↔
    ∃ p later, P.LastAccepted L (P.ApprovesExactly · hash) p later ∧ p.id = id ∧
      id ∉ s.retractedRecords ∧ ∀ x ∈ later, ¬(P.SubjectHash x hash ∧ x.hasRequireRef id = true)
  capabilityIndex : ∀ (key : CapabilityKey) (id : RecordId), s.activeCapabilities[key]? = some id →
    s.capabilityIndex[id]? = some key
  classIndex : ∀ (key : ClassApprovalKey) (id : RecordId), s.classApprovals[key]? = some id →
    s.classApprovalIndex[id]? = some key
  exactIndex : ∀ (hash : Hash256) (id : RecordId), s.validApprovals[hash]? = some id →
    s.exactApprovalIndex[id]? = some hash

end Platform

theorem capabilityEvent_grant {key : CapabilityKey} :
    P.capabilityEvent r = some (.grant key r.id) ↔ P.Grants r key := by
  unfold Platform.capabilityEvent
  split
  · next hk => simp [Platform.Grants, hk]
  · next hk => exact iff_of_false not_grant_of_releaseEvent fun h => by simp [h.1] at hk
  · next hk _ => exact iff_of_false (by simp) fun h => hk h.1

theorem classEvent_grant {key : ClassApprovalKey} :
    P.classEvent r = some (.grant key r.id) ↔ P.ApprovesClass r key := by
  unfold Platform.classEvent
  split
  · next hk =>
    rw [Option.bind_eq_some_iff]
    constructor
    · rintro ⟨d, hd, hkey⟩
      obtain ⟨key', hkey', heq⟩ := Option.map_eq_some_iff.mp hkey
      cases heq
      exact ⟨d, ⟨hk, hd⟩, hkey'⟩
    · rintro ⟨d, ⟨-, hd⟩, hkey⟩
      exact ⟨d, hd, by rw [hkey]; rfl⟩
  · next hk => exact iff_of_false not_grant_of_releaseEvent fun ⟨_, h, _⟩ => by simp [h.1] at hk
  · next hk _ => exact iff_of_false (by simp) fun ⟨_, h, _⟩ => hk h.1

theorem exactEvent_grant {hash : Hash256} :
    P.exactEvent r = some (.grant hash r.id) ↔ P.ApprovesExactly r hash := by
  unfold Platform.exactEvent
  split
  · next hk =>
    rw [Option.bind_eq_some_iff]
    constructor
    · rintro ⟨d, hd, htarget⟩
      obtain ⟨hash', htarget', heq⟩ := Option.map_eq_some_iff.mp htarget
      cases heq
      exact ⟨d, ⟨hk, hd⟩, htarget'⟩
    · rintro ⟨d, ⟨-, hd⟩, htarget⟩
      exact ⟨d, hd, by rw [htarget]; rfl⟩
  · next hk => exact iff_of_false not_grant_of_releaseEvent fun ⟨_, h, _⟩ => by simp [h.1] at hk
  · next hk =>
    exact iff_of_false (by simp [Option.bind_eq_some_iff]) fun ⟨_, h, _⟩ => by simp [h.1] at hk
  · next hk =>
    exact iff_of_false (by simp [Option.bind_eq_some_iff]) fun ⟨_, h, _⟩ => by simp [h.1] at hk
  · next hk _ _ _ => exact iff_of_false (by simp) fun ⟨_, h, _⟩ => hk h.1

theorem exactEvent_spend {hash : Hash256} {test : RecordId → Bool} :
    P.exactEvent r = some (.spend hash test) ↔ P.SubjectHash r hash ∧ test = r.hasRequireRef := by
  unfold Platform.exactEvent Platform.SubjectHash
  split
  · next hk => simp [hk, Option.bind_eq_some_iff]
  · next hk => simp [hk, Platform.releaseEvent]
  · next hk =>
    simp only [hk, Option.bind_eq_some_iff, Option.map_eq_some_iff, Slots.Event.spend.injEq, true_and,
      reduceCtorEq, false_and, or_false]
    constructor
    · rintro ⟨d, hd, hash', hh, rfl, rfl⟩
      exact ⟨⟨d, hd, hh⟩, rfl⟩
    · rintro ⟨⟨d, hd, hh⟩, rfl⟩
      exact ⟨d, hd, hash, hh, rfl, rfl⟩
  · next hk =>
    simp only [hk, Option.bind_eq_some_iff, Option.map_eq_some_iff, Slots.Event.spend.injEq, true_and,
      reduceCtorEq, false_and, false_or]
    constructor
    · rintro ⟨d, hd, hash', hh, rfl, rfl⟩
      exact ⟨⟨d, hd, hh⟩, rfl⟩
    · rintro ⟨⟨d, hd, hh⟩, rfl⟩
      exact ⟨d, hd, hash, hh, rfl, rfl⟩
  · next hact hsel =>
    refine iff_of_false (by simp) ?_
    rintro ⟨⟨hk, -⟩ | ⟨hk, -⟩, -⟩
    · exact hact hk
    · exact hsel hk

/-- A slot of a view: the last grant, neither retracted nor spent. -/
theorem SlotView.last_unretracted {κ : Type} [Ord κ] [TransOrd κ] [LawfulEqOrd κ] (V : SlotView P κ)
    (h : Verified P rules L s) {key : κ} {id : RecordId} {Grants : Record → Prop}
    {Spends : Record → Prop}
    (hgrant : ∀ x, V.event x = some (.grant key x.id) ↔ Grants x)
    (hspend : ∀ x, (∃ test, V.event x = some (.spend key test) ∧ test id = true) ↔ Spends x) :
    (V.table s.grantTables).active[key]? = some id ↔
      ∃ a later, P.LastAccepted L Grants a later ∧ a.id = id ∧ id ∉ s.retractedRecords ∧
        ∀ x ∈ later, ¬Spends x := by
  rw [V.active_iff h]
  constructor
  · rintro ⟨earlier, a, later, hA, rfl, ha, hlater⟩
    refine ⟨a, later, ⟨earlier, hA, (hgrant a).mp ha, fun x hx hg => ?_⟩, rfl, ?_, fun x hx hs => ?_⟩
    · exact hlater x hx _ ((hgrant x).mpr hg) rfl
    · rw [h.retracted_iff_later hA]
      rintro ⟨x, hx, hret⟩
      exact hlater x hx _ (V.release.mpr hret) rfl
    · obtain ⟨test, hev, htest⟩ := (hspend x).mpr hs
      exact hlater x hx _ hev ⟨rfl, htest⟩
  · rintro ⟨a, later, ⟨earlier, hA, hg, hlast⟩, rfl, hret, hspent⟩
    refine ⟨earlier, a, later, hA, rfl, (hgrant a).mpr hg, fun x hx e hev hends => ?_⟩
    cases e with
    | grant key' id' =>
      obtain rfl : key' = key := hends
      obtain rfl := V.grantee hev
      exact hlast x hx ((hgrant x).mp hev)
    | release id' =>
      obtain rfl : id' = a.id := hends
      exact hret ((h.retracted_iff_later hA).mpr ⟨x, hx, V.release.mp hev⟩)
    | spend key' test =>
      obtain ⟨rfl, htest⟩ := hends
      exact hspent x hx ((hspend x).mp ⟨test, hev, htest⟩)

/-- A slot of a view whose records never spend: the last grant, not retracted. -/
theorem SlotView.last_granted {κ : Type} [Ord κ] [TransOrd κ] [LawfulEqOrd κ] (V : SlotView P κ)
    (h : Verified P rules L s) {key : κ} {id : RecordId} {Grants : Record → Prop}
    (hgrant : ∀ x, V.event x = some (.grant key x.id) ↔ Grants x)
    (hspend : ∀ x test, V.event x ≠ some (.spend key test)) :
    (V.table s.grantTables).active[key]? = some id ↔
      ∃ a later, P.LastAccepted L Grants a later ∧ a.id = id ∧ id ∉ s.retractedRecords := by
  have hnever : ∀ x, (∃ test, V.event x = some (.spend key test) ∧ test id = true) ↔ False := by
    intro x
    exact iff_of_false (fun ⟨test, hev, _⟩ => hspend x test hev) not_false
  rw [V.last_unretracted h hgrant hnever]
  simp only [not_false_eq_true, implies_true, and_true]

theorem Verified.authorityForm (h : Verified P rules L s) : P.AuthorityForm L s where
  capability key id := by
    refine (capabilityView P).last_granted h (fun _ => capabilityEvent_grant) fun x test hev => ?_
    change P.capabilityEvent x = _ at hev
    unfold Platform.capabilityEvent at hev
    split at hev <;> simp [Platform.releaseEvent] at hev
  byClass key id := by
    refine (classView P).last_granted h (fun _ => classEvent_grant) fun x test hev => ?_
    change P.classEvent x = _ at hev
    unfold Platform.classEvent at hev
    split at hev <;> simp [Platform.releaseEvent, Option.bind_eq_some_iff] at hev
  exact hash id := by
    refine (exactView P).last_unretracted h (fun _ => exactEvent_grant) fun x => ?_
    constructor
    · rintro ⟨test, hev, htest⟩
      obtain ⟨hh, rfl⟩ := exactEvent_spend.mp hev
      exact ⟨hh, htest⟩
    · rintro ⟨hh, htest⟩
      exact ⟨_, exactEvent_spend.mpr ⟨hh, rfl⟩, htest⟩
  capabilityIndex key id := (capabilityView P).indexed h key id
  classIndex key id := (classView P).indexed h key id
  exactIndex hash id := (exactView P).indexed h hash id

/-- Where the retracted id holds a slot, the slot is emptied; every other slot is as it was. -/
structure State.Released (s s' : State) (id : RecordId) : Prop where
  capability : ∀ key : CapabilityKey, s'.activeCapabilities[key]? =
    if s.activeCapabilities[key]? = some id then none else s.activeCapabilities[key]?
  byClass : ∀ key : ClassApprovalKey, s'.classApprovals[key]? =
    if s.classApprovals[key]? = some id then none else s.classApprovals[key]?
  exact : ∀ hash : Hash256, s'.validApprovals[hash]? =
    if s.validApprovals[hash]? = some id then none else s.validApprovals[hash]?

/-- What the retraction of an id does to the slots. -/
theorem Verified.released {v : Record} (h : Verified P rules L s)
    (h' : Verified P rules (L ++ [r, v]) s') (hr : r ∈ P.accepted (L ++ [r, v])) {id : RecordId}
    (hret : P.Retracts r id) : s.Released s' id := by
  obtain ⟨t, ht, -, -, -, -, hstep⟩ := Verified.snoc_iff.mp h'
  obtain rfl := h.run.unique ht.run
  obtain ⟨hk, d, hd, rfl⟩ := hret
  rcases h.run.step_cases hstep with ⟨hacc, -⟩ | ⟨-, -, u, hf, rfl⟩
  · -- a record of the log before is not one more time its next record
    rw [hacc] at hr
    obtain ⟨hmem, hkind⟩ := h.run.mem_of_mem_accepted hr
    exact absurd rfl (h.run.fresh hstep hmem hkind)
  · have hfold : ∀ {κ : Type} [Ord κ] [TransOrd κ] [LawfulEqOrd κ] (V : SlotView P κ) (key : κ),
        (V.table u.grantTables).active[key]? =
          if (V.table s.grantTables).active[key]? = some d.targetId then none
          else (V.table s.grantTables).active[key]? := by
      intro κ _ _ _ V key
      have hev : V.event r = some (.release d.targetId) := V.release.mpr ⟨hk, d, hd, rfl⟩
      rw [V.fold hf.grants, hev]
      exact Slots.getElem?_release (V.indexed h)
    exact ⟨fun key => hfold (capabilityView P) key, fun key => hfold (classView P) key,
      fun hash => hfold (exactView P) hash⟩

/-- **The closed form of the authority maps.** In the state of every accepted log, a capability or class
approval slot is held by the last accepted grant with its key unless that is retracted, an exact
approval slot by the last accepted approval of its hash unless that is retracted or required by a later
accepted record with this subject hash, and the indexes lead from every holder back to its slot. The
retraction of an id empties the slots that id holds and changes no other. -/
theorem authority_closed_form (h : P.Accepts rules L) :
    ∃ s, P.buildStateUnchecked L = some s ∧ P.AuthorityForm L s ∧
      ∀ r v id, P.Accepts rules (L ++ [r, v]) → r ∈ P.accepted (L ++ [r, v]) → P.Retracts r id →
        ∃ s', P.buildStateUnchecked (L ++ [r, v]) = some s' ∧ s.Released s' id := by
  obtain ⟨s, hv⟩ := accepts_iff.mp h
  refine ⟨s, hv.run.build, hv.authorityForm, ?_⟩
  intro r v id h' hr hret
  obtain ⟨s', hv'⟩ := accepts_iff.mp h'
  exact ⟨s', hv'.run.build, hv.released hv' hr hret⟩

/-- The capability of the sample log holds its slot. -/
theorem sampleLog_capability_slot : ∃ s, reference.buildStateUnchecked sampleLog = some s ∧
    reference.AuthorityForm sampleLog s := by
  obtain ⟨s, hs, hform, -⟩ := authority_closed_form sampleLog_accepts
  exact ⟨s, hs, hform⟩

end Bellbook
