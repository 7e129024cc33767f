import Bellbook.Verify.Closing
import Bellbook.Verify.Grants
import Bellbook.Verify.Work

/-!
# The registers of the state

What is left of the state next to the grants, the lifecycle and the taint: the usage tallies, the active
summaries, the active plans and the replaced records.

* `RegisterFold` says what one accepted record does to them.
* `RegistersInv` says what they are in terms of the accepted records: a tally counts the reports of its
  key, a slot is held by the last record that took it, a record is replaced when some Replace ref names it.
* A replaced record holds no slot of any map (`replaced_inactive`): replacements keep the key they replace.
-/

namespace Bellbook

open Std

namespace Platform

variable (P : Platform)

/-- The tally an accepted Usage adds to, and what it reports. -/
def reports (r : Record) : Option ((RecordId × String) × UsageOutcome) :=
  if r.kind = .usage then
    (P.decode UsageData r.data).map fun d => ((d.usedRecord, d.role), d.outcome)
  else none

/-- What the records report about a key. -/
def outcomes (A : List Record) (key : RecordId × String) : List UsageOutcome :=
  ((A.filterMap P.reports).filter fun p => p.1 = key).map Prod.snd

/-- The tally of some reports: none without a report. -/
def tallied (outcomes : List UsageOutcome) : Option UsageOutcomeCounts :=
  if outcomes = [] then none
  else some ⟨outcomes.count .done, outcomes.count .notDone, outcomes.count .noChange⟩

/-- The record is a Summary under the key. -/
def Summarizes (r : Record) (key : Hash256) : Prop :=
  r.kind = .summary ∧ ∃ d, P.decode SummaryData r.data = some d ∧ P.summaryKey d = some key

/-- What a record does to the summary slots. -/
def summaryEvent (r : Record) : Option (Slots.Event Hash256 RecordId) :=
  if r.kind = .summary then
    ((P.decode SummaryData r.data).bind P.summaryKey).map fun key => .grant key r.id
  else none

/-- What a record does to the plan slots. -/
def planEvent (r : Record) : Option (Slots.Event RecordId RecordId) :=
  match r.kind with
  | .plan => (P.decode PlanData r.data).map fun d =>
      if d.status = .completed ∨ d.status = .abandoned then .spend d.requestId fun _ => true
      else .grant d.requestId r.id
  | .response => (P.decode ResponseData r.data).bind fun d =>
      if d.closesRequest then some (.spend d.requestId fun _ => true) else none
  | .refusal => (P.decode RefusalData r.data).bind fun d =>
      if d.targetKind = .request then some (.spend d.targetId fun _ => true) else none
  | _ => none

end Platform

variable {P : Platform} {rules : VerifierRules} {L A : List Record} {s s' : State} {r : Record}

/-! ## What one fold does -/

structure Registers where
  activeSummaries : IdMap RecordId
  usageCounts : ExtTreeMap (RecordId × String) UsageOutcomeCounts
  replacedRecords : IdSet

def State.registers (s : State) : Registers := ⟨s.activeSummaries, s.usageCounts, s.replacedRecords⟩

/-- A fold, as far as the registers can tell. -/
inductive RegisterFold (P : Platform) (s : State) (r : Record) (s' : State) : Prop
  | usage (hk : r.kind = .usage) {d : UsageData} (hd : P.decode UsageData r.data = some d)
      (heq : s'.registers = { s.registers with
        usageCounts := s.usageCounts.insert (d.usedRecord, d.role)
          ((s.usageCounts[((d.usedRecord, d.role) : RecordId × String)]?.getD {}).tally d.outcome) })
  | summary {key : Hash256} (hr : P.Summarizes r key)
      (heq : s'.registers = { s.registers with
        activeSummaries := s.activeSummaries.insert key r.id, replacedRecords := s.replaced r })
  | replace (hk : Platform.replaceable r.kind = true) (hne : r.kind ≠ .summary)
      (heq : s'.registers = { s.registers with replacedRecords := s.replaced r })
  | other (hk : r.kind ≠ .usage ∧ Platform.replaceable r.kind = false) (heq : s'.registers = s.registers)

theorem Folded.registers (h : Folded P s r s') : RegisterFold P s r s' := by
  cases h with
  | usage hk hd => exact .usage hk hd rfl
  | summary hk hd hkey => exact .summary ⟨hk, _, hd, hkey⟩ rfl
  | capability hk | approval hk | plan hk | selection hk =>
    exact .replace (by rw [hk]; rfl) (by simp [hk]) rfl
  | @refusal hk d =>
    obtain ⟨_, _, _, _, heq⟩ := s.foldRefusal_eq d
    exact .other ⟨by simp [hk], by rw [hk]; rfl⟩ (by rw [heq]; rfl)
  | @response hk d =>
    obtain ⟨_, _, _, heq⟩ := s.foldResponse_eq d
    exact .other ⟨by simp [hk], by rw [hk]; rfl⟩ (by rw [heq]; rfl)
  | @requirement hk d =>
    obtain ⟨_, _, heq⟩ := s.foldRequirement_eq r d
    exact .other ⟨by simp [hk], by rw [hk]; rfl⟩ (by rw [heq]; rfl)
  | inert hk => rcases hk with hk | hk | hk <;> exact .other ⟨by simp [hk], by rw [hk]; rfl⟩ rfl
  | request hk | action hk | result hk | retraction hk =>
    exact .other ⟨by simp [hk], by rw [hk]; rfl⟩ rfl

/-- The first stage of a fold leaves the registers alone. -/
theorem Folded.registers_accept (h : Folded P (s.accept r) r s') : RegisterFold P s r s' := by
  cases h.registers with
  | usage hk hd heq => exact .usage hk hd heq
  | summary hr heq => exact .summary hr heq
  | replace hk hne heq => exact .replace hk hne heq
  | other hk heq => exact .other hk heq

/-! ## Tallies -/

theorem outcomes_concat {key : RecordId × String} : P.outcomes (A ++ [r]) key =
    P.outcomes A key ++ (((P.reports r).filter fun p => p.1 = key).map Prod.snd).toList := by
  rw [Platform.outcomes, List.filterMap_append, List.filter_append, List.map_append]
  cases hr : P.reports r with
  | none => simp [Platform.outcomes, hr]
  | some p => by_cases hp : p.1 = key <;> simp [Platform.outcomes, hr, hp, Option.filter]

theorem tallied_concat {outcomes : List UsageOutcome} {o : UsageOutcome} :
    Platform.tallied (outcomes ++ [o]) = some (((Platform.tallied outcomes).getD {}).tally o) := by
  unfold Platform.tallied
  by_cases hnil : outcomes = []
  · subst hnil
    cases o <;> rfl
  · rw [if_neg hnil, if_neg (by simp)]
    cases o <;> simp [UsageOutcomeCounts.tally]

/-! ## Replacements -/

/-- What the checks say about a Replace ref. -/
structure ReplacesFound (P : Platform) (prior : Prior) (s : State) (r : Record) (id : RecordId) (y : Record) :
    Prop where
  only : refTargets .replace r.refs = [id]
  find : prior.find id = some y
  accepted : y.id ∈ s.acceptedRecords
  replaceable : Platform.replaceable r.kind = true
  kind : y.kind = r.kind
  compatible : P.checkReplacementCompatibility r y = none

theorem replacesFound {prior : Prior} (hc : P.checkSubject rules prior s r = none) {id : RecordId}
    (hid : findReplaceRef r.refs = some id) : ∃ y, ReplacesFound P prior s r id y := by
  have hrep := (checkSubject_passes hc).replacement
  have htarget := mem_refTargets_of_findReplaceRef hid
  unfold Platform.checkReplacement at hrep
  split at hrep
  · next hnil => simp [hnil] at htarget
  · next target hone =>
    obtain rfl : id = target := by simpa [hone] using htarget
    simp only [orElse_none_iff, rejectIf_eq_none, orReject_eq_none, not_not, Bool.not_eq_false] at hrep
    obtain ⟨hreplaceable, y, hfind, hacc, hkind, hcompat⟩ := hrep
    exact ⟨y, hone, hfind, hacc, hreplaceable, hkind, hcompat⟩
  · cases hrep

theorem RegisterFold.mem_replaced (h : RegisterFold P s r s') {prior : Prior}
    (hc : P.checkSubject rules prior s r = none) {id : RecordId} :
    id ∈ s'.replacedRecords ↔ id ∈ s.replacedRecords ∨ findReplaceRef r.refs = some id := by
  have hreplaced : id ∈ s.replaced r ↔ id ∈ s.replacedRecords ∨ findReplaceRef r.refs = some id := by
    unfold State.replaced
    cases findReplaceRef r.refs with
    | none => simp
    | some target =>
      rw [Worklist.mem_insert_iff, Option.some.injEq, or_comm, eq_comm]
  have hnone (hk : Platform.replaceable r.kind = false) : findReplaceRef r.refs ≠ some id := by
    intro hid
    obtain ⟨y, hfound⟩ := replacesFound hc hid
    exact absurd hfound.replaceable (by simp [hk])
  cases h with
  | usage hk hd heq =>
    have hfield : s'.replacedRecords = s.replacedRecords := congrArg Registers.replacedRecords heq
    rw [hfield]
    simp [hnone (by rw [hk]; rfl)]
  | summary _ heq | replace _ _ heq =>
    have hfield : s'.replacedRecords = s.replaced r := congrArg Registers.replacedRecords heq
    rw [hfield, hreplaced]
  | other hk heq =>
    have hfield : s'.replacedRecords = s.replacedRecords := congrArg Registers.replacedRecords heq
    rw [hfield]
    simp [hnone hk.2]

/-! ## Slots -/

theorem RegisterFold.summary_slot (h : RegisterFold P s r s') {key : Hash256} {id : RecordId} :
    s'.activeSummaries[key]? = some id ↔ (P.summaryEvent r = some (.grant key id)) ∨
      (s.activeSummaries[key]? = some id ∧ ∀ e, P.summaryEvent r = some e → ¬e.Ends key id) := by
  cases h with
  | @summary key' hr heq =>
    have hfield : s'.activeSummaries = s.activeSummaries.insert key' r.id :=
      congrArg Registers.activeSummaries heq
    obtain ⟨hk, d, hd, hkey⟩ := hr
    have hevent : P.summaryEvent r = some (.grant key' r.id) := by
      simp [Platform.summaryEvent, hk, hd, hkey]
    rw [hfield, hevent, ExtTreeMap.getElem?_insert]
    by_cases heq' : key' = key
    · simp [heq', Slots.Event.Ends]
    · simp [heq', Slots.Event.Ends]
  | usage hk hd heq =>
    have hfield : s'.activeSummaries = s.activeSummaries := congrArg Registers.activeSummaries heq
    simp [hfield, Platform.summaryEvent, hk]
  | replace hk hne heq =>
    have hfield : s'.activeSummaries = s.activeSummaries := congrArg Registers.activeSummaries heq
    simp [hfield, Platform.summaryEvent, hne]
  | other hk heq =>
    have hfield : s'.activeSummaries = s.activeSummaries := congrArg Registers.activeSummaries heq
    have hne : r.kind ≠ .summary := by
      intro hk'
      rw [hk'] at hk
      cases hk.2
    simp [hfield, Platform.summaryEvent, hne]

/-- A record takes the plan slot of a request when it is a Running plan of it. -/
theorem planEvent_grant {q id : RecordId} :
    P.planEvent r = some (.grant q id) ↔ id = r.id ∧ P.RunningPlan r q := by
  unfold Platform.planEvent Platform.RunningPlan Platform.Plans
  split
  · next hk =>
    constructor
    · intro h
      obtain ⟨d, hd, hev⟩ := Option.map_eq_some_iff.mp h
      split at hev
      · cases hev
      · next hstatus =>
        cases hev
        refine ⟨rfl, d, ⟨hk, hd, rfl⟩, ?_⟩
        cases hs : d.status <;> simp_all
    · rintro ⟨rfl, d, ⟨-, hd, rfl⟩, hs⟩
      simp [hd, hs]
  · next hk => simp [hk, Option.bind_eq_some_iff]
  · next hk => simp [hk, Option.bind_eq_some_iff]
  · next hk _ _ =>
    refine iff_of_false (by simp) ?_
    rintro ⟨-, d, ⟨hk', -⟩, -⟩
    exact hk hk'

/-- A record ends what holds the plan slot of a request when it is a plan of it or closes it. -/
theorem planEvent_ends {q id : RecordId} : (∃ e, P.planEvent r = some e ∧ e.Ends q id) ↔
    (∃ d, P.Plans r q d) ∨ P.Closes r q := by
  unfold Platform.planEvent Platform.Plans Platform.Closes
  split
  · next hk =>
    simp only [Option.map_eq_some_iff, hk, true_and, reduceCtorEq, false_and, or_false]
    constructor
    · rintro ⟨e, ⟨d, hd, rfl⟩, hends⟩
      refine ⟨d, hd, ?_⟩
      split at hends
      · exact hends.1
      · exact hends
    · rintro ⟨d, hd, rfl⟩
      refine ⟨_, ⟨d, hd, rfl⟩, ?_⟩
      split
      · exact ⟨rfl, rfl⟩
      · exact rfl
  · next hk =>
    simp only [Option.bind_eq_some_iff, hk, reduceCtorEq, false_and, exists_false, false_or, true_and, or_false]
    constructor
    · rintro ⟨e, ⟨d, hd, hev⟩, hends⟩
      split at hev
      · next hcl =>
        cases hev
        exact ⟨d, hd, hends.1, hcl⟩
      · cases hev
    · rintro ⟨d, hd, rfl, hcl⟩
      exact ⟨.spend d.requestId fun _ => true, ⟨d, hd, by rw [if_pos hcl]⟩, rfl, rfl⟩
  · next hk =>
    simp only [Option.bind_eq_some_iff, hk, reduceCtorEq, false_and, exists_false, false_or, true_and]
    constructor
    · rintro ⟨e, ⟨d, hd, hev⟩, hends⟩
      split at hev
      · next hcl =>
        cases hev
        exact ⟨d, hd, hcl, hends.1⟩
      · cases hev
    · rintro ⟨d, hd, hcl, rfl⟩
      exact ⟨.spend d.targetId fun _ => true, ⟨d, hd, by rw [if_pos hcl]⟩, rfl, rfl⟩
  · next hplan hresponse hrefusal =>
    refine iff_of_false (by simp) ?_
    rintro (⟨d, hk, -⟩ | ⟨hk, -⟩ | ⟨hk, -⟩)
    · exact hplan hk
    · exact hresponse hk
    · exact hrefusal hk

/-- A plan slot after a fold. -/
theorem LifecycleFold.plan_slot (h : LifecycleFold P s r s') {q id : RecordId} :
    s'.activePlans[q]? = some id ↔ (id = r.id ∧ P.RunningPlan r q) ∨
      (s.activePlans[q]? = some id ∧ ¬((∃ d, P.Plans r q d) ∨ P.Closes r q)) := by
  have hother (hk : r.kind ≠ .plan) : ¬P.RunningPlan r q ∧ ¬∃ d, P.Plans r q d := by
    constructor
    · rintro ⟨d, hd, -⟩
      exact hk hd.1
    · rintro ⟨d, hd⟩
      exact hk hd.1
  have herase {q' : RecordId} : (s.activePlans.erase q')[q]? = some id ↔
      s.activePlans[q]? = some id ∧ ¬q' = q := by
    by_cases hq : q' = q <;> simp [ExtTreeMap.getElem?_erase, hq]
  cases h with
  | @plan q' d hr heq =>
    have hfield : s'.activePlans = s.planSlot r d := congrArg Lifecycle.activePlans heq
    obtain ⟨hk, hd, rfl⟩ := hr
    have hplans : (∃ d, P.Plans r q d) ↔ d.requestId = q := by simp [Platform.Plans, hk, hd]
    have hruns : P.RunningPlan r q ↔ d.requestId = q ∧ d.status = .running := by
      simp [Platform.RunningPlan, Platform.Plans, hk, hd]
    have hcl : ¬P.Closes r q := not_closes (by simp [hk]) q
    rw [hfield, hplans, hruns, State.planSlot, State.foldPlan]
    by_cases hq : d.requestId = q
    · cases hs : d.status <;> simp [hq, eq_comm]
    · cases hs : d.status <;>
        simp [ExtTreeMap.getElem?_insert, ExtTreeMap.getElem?_erase, hq, hcl]
  | @refuse hk q' hcl heq =>
    have hfield : s'.activePlans = s.activePlans.erase q' := congrArg Lifecycle.activePlans heq
    have hiff : P.Closes r q ↔ q' = q := ⟨fun h => hcl.unique h, fun h => h ▸ hcl⟩
    rw [hfield, herase, hiff]
    simp [hother (by simp [hk])]
  | @response q' d hr heq =>
    have hfield : s'.activePlans = if d.closesRequest then s.activePlans.erase q' else s.activePlans :=
      congrArg Lifecycle.activePlans heq
    have hnone := hother (by simp [hr.1])
    rw [hfield, hr.closes_iff]
    cases hcl : d.closesRequest with
    | true => rw [if_pos rfl, herase]; simp [hnone, eq_comm]
    | false => simp [hnone]
  | request hk heq | action hk _ heq =>
    have hfield : s'.activePlans = s.activePlans := congrArg Lifecycle.activePlans heq
    rw [hfield]
    simp [hother (by simp [hk]), not_closes (P := P) (r := r) (by simp [hk]) q]
  | closeAction hcl heq =>
    have hfield : s'.activePlans = s.activePlans := congrArg Lifecycle.activePlans heq
    have hk : r.kind ≠ .plan := by rcases hcl with ⟨hk, -⟩ | ⟨hk, -⟩ <;> simp [hk]
    have hcl' : ¬P.Closes r q := by
      rcases hcl with ⟨hk', -⟩ | ⟨hk', d, hd, haction, -⟩
      · exact not_closes (by simp [hk']) q
      · rw [closes_refusal hk' hd, haction]
        simp
    rw [hfield]
    simp [hother hk, hcl']
  | other hk _ hrefuse heq =>
    have hfield : s'.activePlans = s.activePlans := congrArg Lifecycle.activePlans heq
    rw [hfield]
    simp [hother hk.2.2.2, hrefuse q]

/-! ## What the registers are -/

/-- The registers in terms of the accepted records. -/
structure RegistersInv (P : Platform) (A : List Record) (s : State) : Prop where
  usage : ∀ key, s.usageCounts[key]? = Platform.tallied (P.outcomes A key)
  summaries : ∀ (key : Hash256) (id : RecordId), s.activeSummaries[key]? = some id ↔
    Slots.Holds (A.filterMap P.summaryEvent) key id
  plans : ∀ q id : RecordId, s.activePlans[q]? = some id ↔ Slots.Holds (A.filterMap P.planEvent) q id
  planned : ∀ q ∈ s.activePlans, q ∈ s.activeRequests
  replaced : ∀ id, id ∈ s.replacedRecords ↔ ∃ a ∈ A, findReplaceRef a.refs = some id

theorem RegisterFold.usage_slot (h : RegisterFold P s r s')
    (hs : ∀ key, s.usageCounts[key]? = Platform.tallied (P.outcomes A key)) (key : RecordId × String) :
    s'.usageCounts[key]? = Platform.tallied (P.outcomes (A ++ [r]) key) := by
  rw [outcomes_concat]
  cases h with
  | @usage hk d hd heq =>
    have hfield : s'.usageCounts = s.usageCounts.insert _ _ := congrArg Registers.usageCounts heq
    have hreports : P.reports r = some ((d.usedRecord, d.role), d.outcome) := by
      simp [Platform.reports, hk, hd]
    rw [hfield, hreports, ExtTreeMap.getElem?_insert]
    by_cases hkey : (d.usedRecord, d.role) = key
    · subst hkey
      rw [if_pos ReflCmp.compare_self, hs, ← tallied_concat]
      simp [Option.filter]
    · have hne : ¬compare (d.usedRecord, d.role) key = .eq := by
        rwa [LawfulEqOrd.compare_eq_iff_eq]
      rw [if_neg hne, hs]
      simp [Option.filter, hkey]
  | summary hr heq =>
    have hfield : s'.usageCounts = s.usageCounts := congrArg Registers.usageCounts heq
    have hreports : P.reports r = none := by simp [Platform.reports, hr.1]
    rw [hfield, hreports, hs]
    simp
  | replace hk _ heq =>
    have hfield : s'.usageCounts = s.usageCounts := congrArg Registers.usageCounts heq
    have hreports : P.reports r = none := by
      apply if_neg
      intro husage
      rw [husage] at hk
      cases hk
    rw [hfield, hreports, hs]
    simp
  | other hk heq =>
    have hfield : s'.usageCounts = s.usageCounts := congrArg Registers.usageCounts heq
    have hreports : P.reports r = none := if_neg hk.1
    rw [hfield, hreports, hs]
    simp

theorem Verified.registersInv (h : Verified P rules L s) : RegistersInv P (P.accepted L) s := by
  apply Verified.accepted_induction _ _ _ h
  · intro A s t hinv
    exact ⟨hinv.usage, hinv.summaries, hinv.plans, hinv.planned, hinv.replaced⟩
  · constructor <;> simp [State.empty, Platform.outcomes, Platform.tallied, Slots.Holds]
  · intro L s r v s' hL hstep hc hf hinv
    have hfold := hf.registers_accept
    have hlife := hf.lifecycle_accept
    constructor
    · exact hfold.usage_slot hinv.usage
    · intro key id
      rw [hfold.summary_slot, Slots.holds_filterMap_concat, hinv.summaries]
      simp
    · intro q id
      rw [hlife.plan_slot, Slots.holds_filterMap_concat, hinv.plans, planEvent_grant, planEvent_ends]
    · intro q hq
      obtain ⟨id, hid⟩ := Option.isSome_iff_exists.mp (ExtTreeMap.mem_iff_isSome_getElem?.mp hq)
      rw [hlife.mem_activeRequests]
      rcases hlife.plan_slot.mp hid with ⟨-, d, hplan, -⟩ | ⟨hold, hkept⟩
      · -- a Plan is only accepted for an active request, and closes none
        refine .inr ⟨serves_active hc (.inr (.inr (.inl ⟨d, hplan⟩))), not_closes ?_ q⟩
        simp [hplan.1]
      · have hmem : q ∈ s.activePlans := by
          rw [ExtTreeMap.mem_iff_isSome_getElem?, hold]
          rfl
        exact .inr ⟨hinv.planned q hmem, fun hcl => hkept (.inr hcl)⟩
    · intro id
      rw [hfold.mem_replaced hc, hinv.replaced, exists_mem_concat]

/-! ## Order of the accepted records -/

theorem accepted_sublist (P : Platform) : ∀ L : List Record, (P.accepted L).Sublist L
  | [] => List.Sublist.refl _
  | [_] => List.nil_sublist _
  | r :: v :: rest => by
    rw [Platform.accepted]
    split
    · exact ((accepted_sublist P rest).cons v).cons_cons r
    · exact ((accepted_sublist P rest).cons v).cons r

/-- The accepted records stand in the order of their times. -/
theorem Verified.accepted_pairwise (h : Verified P rules L s) :
    (P.accepted L).Pairwise fun a b => a.time.toNat < b.time.toNat := by
  apply List.Pairwise.sublist (accepted_sublist P L)
  rw [List.pairwise_iff_getElem]
  intro i j hi hj hij
  rw [h.time_eq hi, h.time_eq hj]
  omega

/-- The subjects whose ids the state calls accepted are the accepted records. -/
theorem Replays.filter_accepted (h : Replays P rules L s) :
    (L.filter fun r => r.kind ≠ .verdict && r.id ∈ s.acceptedRecords) = P.accepted L := by
  induction h with
  | nil => rfl
  | @snoc L s s' r v h hstep ih =>
    have hv : v.kind = .verdict := hstep.verdict
    have hr : r.kind ≠ .verdict := hstep.subject
    rw [List.filter_append]
    rcases h.step_cases hstep with ⟨hacc, -, rfl⟩ | ⟨hacc, -, t, hfold, rfl⟩
    · -- a rejected subject has an id no accepted record has
      have hid : r.id ∉ s.acceptedRecords := by
        intro hid
        obtain ⟨a, ha, haid⟩ := h.mem_acceptedRecords.mp hid
        obtain ⟨hmem, hk⟩ := h.mem_of_mem_accepted ha
        exact h.fresh hstep hmem hk haid
      simpa [hacc, hv, hid] using ih
    · have hids : t.acceptedRecords = s.acceptedRecords.insert r.id := hfold.acceptedRecords
      have hold : (L.filter fun x => x.kind ≠ .verdict && x.id ∈ t.acceptedRecords) = P.accepted L := by
        rw [← ih]
        apply List.filter_congr
        intro x hx
        by_cases hk : x.kind = .verdict
        · simp [hk]
        · have hne := (h.fresh hstep hx hk).symm
          simp [hids, hne]
      simp only [hacc]
      rw [hold]
      simp [hv, hr, hids]

theorem Platform.LastAccepted.holds {p : Record → Prop} {a : Record} {later : List Record}
    (h : P.LastAccepted L p a later) : p a := by
  obtain ⟨-, -, ha, -⟩ := h
  exact ha

/-- What is accepted after the last record of a kind is not of the kind. -/
theorem Verified.not_of_last (h : Verified P rules L s) {p : Record → Prop} {y a : Record}
    {later : List Record} (hlast : P.LastAccepted L p y later) (ha : a ∈ P.accepted L)
    (hlt : y.time.toNat < a.time.toNat) : ¬p a := by
  obtain ⟨earlier, hA, -, hlater⟩ := hlast
  have hsorted := h.accepted_pairwise
  rw [hA] at ha hsorted
  obtain ⟨-, -, hbefore⟩ := List.pairwise_append.mp hsorted
  rcases List.mem_append.mp ha with ha | ha
  · have := hbefore a ha y List.mem_cons_self
    omega
  · rcases List.mem_cons.mp ha with rfl | ha
    · omega
    · exact hlater a ha

/-! ## Replaced records hold nothing -/

theorem compatible_eq_none {α : Type} [Deserialize α] {target : Record} {ok : α → α → Bool} :
    P.compatible α r target ok = none ↔ ∃ new old, P.decode α r.data = some new ∧
      P.decode α target.data = some old ∧ ok new old = true := by
  simp [Platform.compatible]

section Compatible

variable {prior : Prior} {id : RecordId} {y : Record} (hfound : ReplacesFound P prior s r id y)
include hfound

/-! A record takes every slot that what it replaces could hold. -/

theorem ReplacesFound.grants {key : CapabilityKey} (hy : P.Grants y key) : P.Grants r key := by
  obtain ⟨hk, d, hd, rfl⟩ := hy
  have hcompat := hfound.compatible
  rw [Platform.checkReplacementCompatibility, ← hfound.kind, hk, compatible_eq_none] at hcompat
  obtain ⟨new, old, hnew, hold, hok⟩ := hcompat
  cases hd.symm.trans hold
  simp only [Bool.and_eq_true, decide_eq_true_eq] at hok
  refine ⟨hfound.kind ▸ hk, new, hnew, ?_⟩
  rw [CapabilityData.key, CapabilityData.key, hok.1.1, hok.1.2, hok.2]

theorem ReplacesFound.summarizes {key : Hash256} (hy : P.Summarizes y key) : P.Summarizes r key := by
  obtain ⟨hk, d, hd, hkey⟩ := hy
  have hcompat := hfound.compatible
  rw [Platform.checkReplacementCompatibility, ← hfound.kind, hk, compatible_eq_none] at hcompat
  obtain ⟨new, old, hnew, hold, hok⟩ := hcompat
  cases hd.symm.trans hold
  simp only [Bool.and_eq_true, decide_eq_true_eq] at hok
  refine ⟨hfound.kind ▸ hk, new, hnew, ?_⟩
  rw [← hkey, Platform.summaryKey, Platform.summaryKey, hok.1.1, hok.1.2, hok.2]

theorem ReplacesFound.plans {q : RecordId} (hy : ∃ d, P.Plans y q d) : ∃ d, P.Plans r q d := by
  obtain ⟨d, hk, hd, rfl⟩ := hy
  have hcompat := hfound.compatible
  rw [Platform.checkReplacementCompatibility, ← hfound.kind, hk, compatible_eq_none] at hcompat
  obtain ⟨new, old, hnew, hold, hok⟩ := hcompat
  cases hd.symm.trans hold
  exact ⟨new, hfound.kind ▸ hk, hnew, of_decide_eq_true hok⟩

theorem ReplacesFound.approvals {d : ApprovalData} (hy : P.Approves y d) :
    ∃ new, P.Approves r new ∧ Platform.approvalsCompatible new d = true := by
  obtain ⟨hk, hd⟩ := hy
  have hcompat := hfound.compatible
  rw [Platform.checkReplacementCompatibility, ← hfound.kind, hk, compatible_eq_none] at hcompat
  obtain ⟨new, old, hnew, hold, hok⟩ := hcompat
  cases hd.symm.trans hold
  exact ⟨new, ⟨hfound.kind ▸ hk, hnew⟩, hok⟩

/-- Here and below the form of the replaced approval is known: it is exact or of a class, not both. -/
theorem ReplacesFound.approvesExactly {hash : Hash256} (hy : P.ApprovesExactly y hash)
    (hform : ∀ d, P.Approves y d → d.targetAction.isSome ≠ d.actionClass.isSome) : P.ApprovesExactly r hash := by
  obtain ⟨d, hd, htarget⟩ := hy
  obtain ⟨new, hnew, hok⟩ := hfound.approvals hd
  have hclass : d.actionClass.isSome = false := by simpa [htarget] using hform d hd
  refine ⟨new, hnew, ?_⟩
  unfold Platform.approvalsCompatible at hok
  split at hok
  · simp only [Bool.and_eq_true, decide_eq_true_eq] at hok
    exact hok.2.trans htarget
  · simp [hclass] at hok

theorem ReplacesFound.approvesClass {key : ClassApprovalKey} (hy : P.ApprovesClass y key)
    (hform : ∀ d, P.Approves y d → d.targetAction.isSome ≠ d.actionClass.isSome) : P.ApprovesClass r key := by
  obtain ⟨d, hd, hkey⟩ := hy
  obtain ⟨new, hnew, hok⟩ := hfound.approvals hd
  obtain ⟨c, hc, rfl⟩ := Option.map_eq_some_iff.mp hkey
  have htarget : d.targetAction.isSome = false := by simpa [hc] using hform d hd
  refine ⟨new, hnew, ?_⟩
  unfold Platform.approvalsCompatible at hok
  split at hok
  · next h => simp [htarget] at h
  · split at hok
    · simp only [Bool.and_eq_true, decide_eq_true_eq] at hok
      rw [ApprovalData.classKey, hok.1.1, hok.1.2, hok.2, hc]
      rfl
    · cases hok

end Compatible

/-- The replacer of a replaced record, and what it replaced. -/
theorem Verified.replacer (h : Verified P rules L s) (hs : P.HashSound L) {id : RecordId}
    (hid : id ∈ s.replacedRecords) : ∃ a y prior t, a ∈ P.accepted L ∧ y ∈ P.accepted L ∧ y.id = id ∧
      y.time.toNat < a.time.toNat ∧ ReplacesFound P prior t a id y := by
  obtain ⟨a, ha, href⟩ := (h.registersInv.replaced id).mp hid
  obtain ⟨i, hi, rfl⟩ := List.mem_iff_getElem.mp (mem_of_mem_accepted ha)
  obtain ⟨t, ht, hc⟩ := h.accepted_at hs hi ha
  obtain ⟨y, hfound⟩ := replacesFound hc href
  obtain ⟨hy, hyid, hlt⟩ := h.found_before hs hi ht hfound.find hfound.accepted
  exact ⟨L[i], y, _, t, ha, hy, hyid, hlt, hfound⟩

namespace Platform

variable (P : Platform)

/-- The registers of the state, in terms of the log. -/
structure RegistersExact (L : List Record) (s : State) : Prop where
  usage : ∀ key, s.usageCounts[key]? = tallied (P.outcomes (P.accepted L) key)
  bounded : ∀ (key : RecordId × String) (c : UsageOutcomeCounts), s.usageCounts[key]? = some c →
    c.done + c.notDone + c.noChange < 2 ^ 64
  summaries : ∀ (key : Hash256) (id : RecordId), s.activeSummaries[key]? = some id ↔
    ∃ x later, P.LastAccepted L (P.Summarizes · key) x later ∧ x.id = id
  plans : ∀ q id : RecordId, s.activePlans[q]? = some id ↔
    ∃ p later, P.LastAccepted L (fun x => ∃ d, P.Plans x q d) p later ∧ p.id = id ∧
      P.RunningPlan p q ∧ ∀ x ∈ later, ¬P.Closes x q
  planned : ∀ q ∈ s.activePlans, q ∈ s.activeRequests
  replaced : ∀ id, id ∈ s.replacedRecords ↔ ∃ a ∈ P.accepted L, findReplaceRef a.refs = some id

end Platform

/-- A record is in no slot of the authority maps. -/
structure State.HoldsNoAuthority (s : State) (id : RecordId) : Prop where
  capability : ∀ key : CapabilityKey, s.activeCapabilities[key]? ≠ some id
  byClass : ∀ key : ClassApprovalKey, s.classApprovals[key]? ≠ some id
  exact : ∀ hash : Hash256, s.validApprovals[hash]? ≠ some id

/-- A record is in no slot of the maps of grants, summaries and plans. -/
structure State.HoldsNothing (s : State) (id : RecordId) : Prop extends s.HoldsNoAuthority id where
  summary : ∀ key : Hash256, s.activeSummaries[key]? ≠ some id
  plan : ∀ q : RecordId, s.activePlans[q]? ≠ some id

theorem summaryEvent_grant {key : Hash256} {id : RecordId} :
    P.summaryEvent r = some (.grant key id) ↔ id = r.id ∧ P.Summarizes r key := by
  unfold Platform.summaryEvent Platform.Summarizes
  split
  · next hk =>
    simp only [Option.map_eq_some_iff, Option.bind_eq_some_iff, Slots.Event.grant.injEq, hk, true_and]
    constructor
    · rintro ⟨key', ⟨d, hd, hkey⟩, rfl, rfl⟩
      exact ⟨rfl, d, hd, hkey⟩
    · rintro ⟨rfl, d, hd, hkey⟩
      exact ⟨key, ⟨d, hd, hkey⟩, rfl, rfl⟩
  · next hk => simp [hk]

theorem summaryEvent_ends {key : Hash256} {id : RecordId} :
    (∃ e, P.summaryEvent r = some e ∧ e.Ends key id) ↔ P.Summarizes r key := by
  constructor
  · rintro ⟨e, he, hends⟩
    cases e with
    | grant key' id' =>
      obtain rfl : key' = key := hends
      exact (summaryEvent_grant.mp he).2
    | release id' => simp [Platform.summaryEvent, Option.bind_eq_some_iff] at he
    | spend key' test => simp [Platform.summaryEvent, Option.bind_eq_some_iff] at he
  · intro h
    exact ⟨_, summaryEvent_grant.mpr ⟨rfl, h⟩, rfl⟩

/-- Every report is counted once. -/
theorem count_outcomes (outcomes : List UsageOutcome) :
    outcomes.count .done + outcomes.count .notDone + outcomes.count .noChange = outcomes.length := by
  induction outcomes with
  | nil => rfl
  | cons o outcomes ih => cases o <;> simp <;> omega

theorem length_outcomes_le {key : RecordId × String} : (P.outcomes A key).length ≤ A.length := by
  rw [Platform.outcomes, List.length_map]
  exact (List.length_filter_le _ _).trans (List.length_filterMap_le _ _)

/-- The times of a log are 64-bit words, so the log is short of `2 ^ 64` records. -/
theorem Verified.length_lt (h : Verified P rules L s) : L.length < 2 ^ 64 := by
  cases hL : L.length with
  | zero => exact Nat.two_pow_pos 64
  | succ n =>
    have hn : n < L.length := by omega
    rw [← h.time_eq hn]
    exact (L[n]).time.toNat_lt

theorem Verified.registersExact (h : Verified P rules L s) : P.RegistersExact L s := by
  have hinv := h.registersInv
  refine ⟨hinv.usage, ?_, ?_, ?_, hinv.planned, hinv.replaced⟩
  · intro key c hc
    rw [hinv.usage, Platform.tallied] at hc
    split at hc
    · cases hc
    · cases hc
      show (P.outcomes (P.accepted L) key).count .done + _ + _ < _
      rw [count_outcomes]
      have hle := (accepted_sublist P L).length_le
      have hcount : (P.outcomes (P.accepted L) key).length ≤ _ := length_outcomes_le
      have hlt := h.length_lt
      omega
  · intro key id
    rw [hinv.summaries, Slots.holds_filterMap]
    constructor
    · rintro ⟨earlier, x, later, hA, hx, hlater⟩
      obtain ⟨rfl, hsum⟩ := summaryEvent_grant.mp hx
      refine ⟨x, later, ⟨earlier, hA, hsum, fun y hy hsum' => ?_⟩, rfl⟩
      exact hlater y hy _ (summaryEvent_grant.mpr ⟨rfl, hsum'⟩) rfl
    · rintro ⟨x, later, ⟨earlier, hA, hx, hlater⟩, rfl⟩
      refine ⟨earlier, x, later, hA, summaryEvent_grant.mpr ⟨rfl, hx⟩, fun y hy e he hends => ?_⟩
      exact hlater y hy (summaryEvent_ends.mp ⟨e, he, hends⟩)
  · intro q id
    rw [hinv.plans, Slots.holds_filterMap]
    constructor
    · rintro ⟨earlier, p, later, hA, hp, hlater⟩
      obtain ⟨rfl, hrun⟩ := planEvent_grant.mp hp
      have hends : ∀ x ∈ later, ¬((∃ d, P.Plans x q d) ∨ P.Closes x q) := by
        intro x hx hor
        obtain ⟨e, he, hends⟩ : ∃ e, P.planEvent x = some e ∧ e.Ends q p.id := planEvent_ends.mpr hor
        exact hlater x hx e he hends
      have ⟨d, hd, _⟩ := hrun
      exact ⟨p, later, ⟨earlier, hA, ⟨d, hd⟩, fun x hx hplan => hends x hx (.inl hplan)⟩, rfl, hrun,
        fun x hx hcl => hends x hx (.inr hcl)⟩
    · rintro ⟨p, later, ⟨earlier, hA, -, hlater⟩, rfl, hrun, hopen⟩
      refine ⟨earlier, p, later, hA, planEvent_grant.mpr ⟨rfl, hrun⟩, fun x hx e he hends => ?_⟩
      rcases planEvent_ends.mp ⟨e, he, hends⟩ with hplan | hcl
      · exact hlater x hx hplan
      · exact hopen x hx hcl

/-- **The closed form of the registers.** In the state of every accepted log, the tally of a record and a
role counts the accepted Usages that report it (far below the range of its counters), a summary slot is
held by the last accepted Summary of its key, the plan slot of a request by its last accepted Plan as long
as that is Running and the request was not closed, in particular only active requests have one, and the
replaced records are the targets of accepted Replace refs. -/
theorem registers_exact (h : P.Accepts rules L) :
    ∃ s, P.buildStateUnchecked L = some s ∧ P.RegistersExact L s := by
  obtain ⟨s, hv⟩ := accepts_iff.mp h
  exact ⟨s, hv.run.build, hv.registersExact⟩

/-- The one report of the work log is tallied. -/
theorem workLog_tally : ∃ s, reference.buildStateUnchecked workLog = some s ∧
    s.usageCounts[((freeCapability.id, "r") : RecordId × String)]? = some ⟨1, 0, 0⟩ := by
  obtain ⟨s, hbuild, hexact⟩ := registers_exact workLog_accepts
  refine ⟨s, hbuild, ?_⟩
  rw [hexact.usage, accepted_workLog]
  decide +kernel

/-- **What is replaced is inactive.** In the state of every accepted log, a replaced record holds no
capability, approval, summary or plan slot. -/
theorem replaced_inactive (hs : P.HashSound L) (h : P.Accepts rules L) :
    ∃ s, P.buildStateUnchecked L = some s ∧ ∀ id ∈ s.replacedRecords, s.HoldsNothing id := by
  obtain ⟨s, hv⟩ := accepts_iff.mp h
  refine ⟨s, hv.run.build, fun id hid => ?_⟩
  obtain ⟨a, y, prior, t, ha, hy, rfl, hlt, hfound⟩ := hv.replacer hs hid
  have hform := fun d hd => hv.approval_form hs hy (d := d) hd
  have hauthority := hv.authorityForm
  have hregisters := hv.registersExact
  have hholder {x : Record} {p : Record → Prop} {later : List Record} (hx : P.LastAccepted L p x later)
      (hxid : x.id = y.id) : x = y := by
    obtain ⟨earlier, hA, -⟩ := hx
    exact hv.run.eq_of_accepted_id (by rw [hA]; simp) hy hxid
  refine ⟨⟨?_, ?_, ?_⟩, ?_, ?_⟩
  · intro key hslot
    obtain ⟨c, later, hlast, hcid, -⟩ := (hauthority.capability key y.id).mp hslot
    obtain rfl := hholder hlast hcid
    exact hv.not_of_last hlast ha hlt (hfound.grants hlast.holds)
  · intro key hslot
    obtain ⟨c, later, hlast, hcid, -⟩ := (hauthority.byClass key y.id).mp hslot
    obtain rfl := hholder hlast hcid
    exact hv.not_of_last hlast ha hlt (hfound.approvesClass hlast.holds hform)
  · intro hash hslot
    obtain ⟨c, later, hlast, hcid, -⟩ := (hauthority.exact hash y.id).mp hslot
    obtain rfl := hholder hlast hcid
    exact hv.not_of_last hlast ha hlt (hfound.approvesExactly hlast.holds hform)
  · intro key hslot
    obtain ⟨c, later, hlast, hcid⟩ := (hregisters.summaries key y.id).mp hslot
    obtain rfl := hholder hlast hcid
    exact hv.not_of_last hlast ha hlt (hfound.summarizes hlast.holds)
  · intro q hslot
    obtain ⟨c, later, hlast, hcid, -⟩ := (hregisters.plans q y.id).mp hslot
    obtain rfl := hholder hlast hcid
    exact hv.not_of_last hlast ha hlt (hfound.plans hlast.holds)

/-- A capability that takes back the sample capability. -/
def denyingCapability : Record :=
  sampleSubject 0xfae39fbc2992b83e5a1526cdc7fa4f3cb9ff40698f6d3276f9a5503c956cc391
    5 byUser .capability schemaCapability (payload { sampleCapabilityData with mode := .deny })
    [⟨.replace, sampleCapability.id⟩]

def replaceLog : List Record :=
  sampleRound ++
  [sampleCapability,
    acceptance 0x57c6ed812b5fd90ec47cab46ad86ef6a320bb7f3dc6d085fd6a4fce200bf24d7 sampleCapability,
    denyingCapability,
    acceptance 0x3378bb8736a31df01b438e4879dd09a961e2f3c83c3f2d8619541fb860b621bc denyingCapability]

theorem replaceLog_accepts : reference.Accepts sampleRules replaceLog := by
  obtain ⟨s, hv⟩ := accepts_iff.mp sampleLog_accepts
  have hprefix : reference.Accepts sampleRules (replaceLog.take 4) := accepts_iff.mpr (hv.take (k := 2) (by decide))
  exact hprefix.extend (by decide) (by decide +kernel)

theorem replaceLog_hashSound : reference.HashSound replaceLog := by
  obtain ⟨s, hv⟩ := accepts_iff.mp replaceLog_accepts
  refine hashSound_of_nodup hv.ids ?_ (by decide +kernel)
  rw [map_schemaId]
  decide +kernel

/-- The replaced capability has lost its slot. -/
theorem replaceLog_inactive : ∃ s, reference.buildStateUnchecked replaceLog = some s ∧
    sampleCapability.id ∈ s.replacedRecords ∧ s.HoldsNothing sampleCapability.id := by
  obtain ⟨s, hbuild, hnone⟩ := replaced_inactive replaceLog_hashSound replaceLog_accepts
  obtain ⟨t, hv⟩ := accepts_iff.mp replaceLog_accepts
  obtain rfl : t = s := Option.some.inj (hv.run.build.symm.trans hbuild)
  have hid : sampleCapability.id ∈ t.replacedRecords := by
    rw [hv.registersInv.replaced]
    exact ⟨denyingCapability, by decide +kernel, rfl⟩
  exact ⟨t, hbuild, hid, hnone _ hid⟩

end Bellbook
