import Bellbook.Queries.Accepted
import Bellbook.Receipt.Validate
import Bellbook.Verify.Evidence

/-!
# What a delivery receipt says

`delivery-receipt-v1` is evaluated over a receipt that validated. Its clauses mention the claimed
Selection's own standing and filter by acceptance; that nothing the Selection rests on is rejected,
retracted or tainted follows from elsewhere:

* the baseline asks for an evidence threshold on Selections, and a Selection that Uses a rejected
  record is `Assumed` (`Verified.used_accepted`);
* an untainted Selection has no retracted or tainted target (`Verified.clean_target`);
* the chosen Candidate is one of its `Require` targets (`Verified.winner_required`).

`Claims` and `Delivers` say this over the records of the log, without the evaluator's tables.
-/

namespace Bellbook

open Std

/-! ## Claims -/

namespace Platform

variable (P : Platform)

/-- The record is an Evaluation of the extended shape that `x` Uses. -/
structure UsesEvaluation (L : List Record) (x e : Record) (d : EvaluationDataV2) : Prop where
  accepted : e ∈ P.accepted L
  kind : e.kind = .evaluation
  used : e.id ∈ refTargets .use x.refs
  payload : P.decode EvaluationDataV2 e.data = some d

/-- An accepted Requirement under the Request. -/
structure RequirementOf (L : List Record) (request : RecordId) (q : Record) : Prop where
  accepted : q ∈ P.accepted L
  kind : q.kind = .requirement
  cause : q.firstCause = some request

/-- Some Evaluation that `x` Uses speaks to a Requirement under the Request. -/
def BindsTo (L : List Record) (x : Record) (request : RecordId) : Prop :=
  ∃ e d, P.UsesEvaluation L x e d ∧ ∃ q, P.RequirementOf L request q ∧ q.id ∈ d.requirements

/-- A delivery claim: an accepted Selection that chose something, and whose Evaluations bind to this
one Request. -/
structure Claims (L : List Record) (x : Record) (request : RecordId) : Prop where
  accepted : x ∈ P.accepted L
  kind : x.kind = .selection
  selected : ∃ d chosen, P.decode SelectionData x.data = some d ∧ d.outcome = .selected chosen
  request : ∀ other, P.BindsTo L x other ↔ other = request

end Platform

/-- Unretracted and untainted at the head. -/
def Report.Clean (report : Report) (id : RecordId) : Prop :=
  id ∉ report.retractedRecords ∧ id ∉ report.taintedRecords

namespace Platform

variable (P : Platform)

/-- The artifact is bound by the Candidate, or by an accepted Result in the thread. -/
def OnRecord (L : List Record) (thread : ThreadId) (candidate : Record) (a : ArtifactRef) : Prop :=
  (∃ d artifacts, P.decode CandidateData candidate.data = some d ∧ d.artifacts = some artifacts ∧
      ∃ b ∈ artifacts, b.scheme = a.scheme ∧ b.digest = a.digest) ∨
    ∃ x ∈ P.accepted L, x.kind = .result ∧ x.thread = thread ∧
      ∃ d artifacts, P.decode ResultData x.data = some d ∧ d.artifacts = some artifacts ∧
        ∃ b ∈ artifacts, b.scheme = a.scheme ∧ b.digest = a.digest

/-- What a conformant receipt says of a Request: `sel` is its latest sound claim, for the Candidate
`c`. -/
structure Delivers (L : List Record) (report : Report) (request : RecordId) (sel c : Record) : Prop where
  claim : P.Claims L sel request
  sound : sel.id ∉ report.standing.unsound ∧ report.Clean sel.id
  latest : ∀ x, P.Claims L x request → x.id ∉ report.standing.unsound → report.Clean x.id →
    x.time ≤ sel.time
  chosen : ∃ d, P.decode SelectionData sel.data = some d ∧ d.outcome = .selected [c.id]
  candidate : c ∈ P.accepted L ∧ report.Clean c.id
  uses : ∀ id ∈ refTargets .use sel.refs, ∃ x ∈ P.accepted L, x.id = id ∧ report.Clean id
  covered : ∀ q, P.RequirementOf L request q → q.id ∉ report.retractedRecords →
    ∀ qd, P.decode RequirementData q.data = some qd → qd.required = true →
    (∃ e d, P.UsesEvaluation L sel e d ∧ q.id ∈ d.requirements ∧ d.outcome = .passed) ∧
      ∀ e d, P.UsesEvaluation L sel e d → q.id ∈ d.requirements → d.outcome = .passed
  judged : ∀ e ∈ L, e.kind = .evaluation → e.id ∈ refTargets .use sel.refs →
    ∃ d, P.UsesEvaluation L sel e d ∧ d.candidate = c.id ∧ e.author.id ≠ c.author.id ∧
      d.evidence ≠ [] ∧ ∀ a ∈ d.evidence, P.OnRecord L sel.thread c a

end Platform

variable {P : Platform} {rules : VerifierRules} {L : List Record} {s : State} {r : Receipt}
  {report : Report}

/-! ## What an accepted Selection rests on -/

/-- The evidence of a subject that passes meets the threshold of its kind. -/
theorem checkSubject_threshold {prior : Prior} {x : Record} {t : Evidence}
    (h : P.checkSubject rules prior s x = none) (ht : rules.evidenceThresholds[x.kind]? = some t) :
    x.evidence ≤ t := by
  simp only [Platform.checkSubject, Platform.checkEvidence, orElse_none_iff, rejectIf_eq_none,
    orReject_eq_none, not_not] at h
  obtain ⟨-, -, -, kind, -, -, -, -, -, -, ⟨hev, hthr⟩, -⟩ := h
  rw [ht, Option.any_some, decide_eq_true_eq, ← hev] at hthr
  exact le_of_not_gt hthr

theorem restsOn_of_mem {x : Record} {type : RefType} {id : RecordId} (htype : type.epistemic = true)
    (h : id ∈ refTargets type x.refs) : x.restsOn id := by
  obtain ⟨ref, href, rfl, rfl⟩ := mem_refTargets.mp h
  exact ⟨ref, href, htype, rfl⟩

section Rests

variable (h : Verified P rules L s) (hs : P.HashSound L)
include h hs

/-- A Selection that meets a threshold of `Inferred` Uses and Requires accepted records only. -/
theorem Verified.used_accepted {x : Record} (hx : x ∈ P.accepted L) (hk : x.kind = .selection)
    {t : Evidence} (ht : rules.evidenceThresholds[Kind.selection]? = some t) (hle : t ≤ .inferred)
    {id : RecordId} (hid : x.restsOn id) : ∃ y ∈ P.accepted L, y.id = id := by
  obtain ⟨i, hi, rfl⟩ := List.mem_iff_getElem.mp (mem_of_mem_accepted hx)
  obtain ⟨u, hu, hcheck⟩ := h.accepted_at hs hi hx
  -- the ref resolves to a record of the log
  obtain ⟨ref, href, htype, rfl⟩ := hid
  have htarget := (checkSubject_passes hcheck).targets ref href
  simp only [Platform.checkRef, orReject_eq_none] at htarget
  obtain ⟨y, hfind, -⟩ := htarget
  obtain ⟨hy, hyid⟩ := find_mem hfind
  have hyL : y ∈ L := List.take_subset _ _ hy
  refine ⟨y, ?_, hyid⟩
  by_contra hrej
  have hlaw := (h.evidenceLaw hs hi hx).lowered
    ⟨y, .single ⟨mem_of_mem_accepted hx, hyL, ref, href, htype, hyid.symm⟩, .inl hrej⟩
  have hmeets := checkSubject_threshold hcheck (hk ▸ ht)
  rw [hlaw] at hmeets
  exact absurd (hmeets.trans hle) (by decide)

omit hs in
/-- An untainted record has no retracted or tainted target. -/
theorem Verified.clean_target {x : Record} (hx : x ∈ P.accepted L) (hclean : x.id ∉ s.taintedRecords)
    {id : RecordId} (hid : x.restsOn id) : id ∉ s.retractedRecords ∧ id ∉ s.taintedRecords := by
  have hedge : P.RestsOnId L x.id id := ⟨x, hx, rfl, hid⟩
  rw [h.run.taintInv.tainted] at hclean ⊢
  exact ⟨fun hret => hclean (.cons hedge (.inl hret)), fun htaint => hclean (.cons hedge (.inr htaint))⟩

/-- What a Selection chose, it Requires. -/
theorem Verified.winner_required {x : Record} (hx : x ∈ P.accepted L) (hk : x.kind = .selection)
    {d : SelectionData} (hd : P.decode SelectionData x.data = some d) {c : RecordId}
    (hc : c ∈ d.outcome.winners) : x.restsOn c := by
  obtain ⟨i, hi, rfl⟩ := List.mem_iff_getElem.mp (mem_of_mem_accepted hx)
  obtain ⟨u, hu, hcheck⟩ := h.accepted_at hs hi hx
  have hkind := (checkSubject_passes hcheck).kind
  simp only [Platform.checkKindSpecific, hk, Platform.checkSelection, orReject_eq_none,
    orElse_none_iff] at hkind
  obtain ⟨d', hd', -, -, -, -, -, hrest⟩ := hkind
  obtain rfl : d' = d := Option.some.inj (hd'.symm.trans hd)
  split at hrest
  · cases hrest
  · next approval _ =>
    simp only [orElse_none_iff, rejectIf_eq_none, not_not] at hrest
    have hmem : c ∈ idSetOf (d'.outcome.winners ++ approval.toList) :=
      mem_idSetOf.mpr (List.mem_append_left _ hc)
    rw [← hrest.1, mem_idSetOf] at hmem
    exact restsOn_of_mem rfl hmem

end Rests

/-! ## The evaluator's tables -/

section Tables

variable (h : Verified P rules r.records s) (hs : P.HashSound r.records)
include h hs

theorem Verified.receipt_byId {id : RecordId} {x : Record} :
    r.byId[id]? = some x ↔ x ∈ r.records ∧ x.id = id := h.byId_eq_some hs

theorem Verified.receipt_isAccepted {x : Record} (hx : x ∈ r.records) :
    r.isAccepted s x.id = true ↔ x ∈ P.accepted r.records := by
  have hid : x.id ∈ r.byId := by
    rw [ExtTreeMap.mem_iff_isSome_getElem?, (h.receipt_byId hs).mpr ⟨hx, rfl⟩]
    rfl
  simp only [Receipt.isAccepted, Bool.and_eq_true, decide_eq_true_eq, hid, and_true]
  constructor
  · exact h.accepted_of_mem hs hx
  · exact fun hacc => h.run.mem_acceptedRecords.mpr ⟨x, hacc, rfl⟩

theorem Verified.mem_usedEvaluations {x e : Record} :
    e ∈ r.usedEvaluations s x ↔
      e ∈ P.accepted r.records ∧ e.kind = .evaluation ∧ e.id ∈ refTargets .use x.refs := by
  simp only [Receipt.usedEvaluations, List.mem_filter, List.mem_filterMap, h.receipt_byId hs,
    Bool.and_eq_true, decide_eq_true_eq]
  constructor
  · rintro ⟨⟨id, hid, he, rfl⟩, hk, hacc⟩
    exact ⟨(h.receipt_isAccepted hs he).mp hacc, hk, hid⟩
  · rintro ⟨hacc, hk, huse⟩
    have he := mem_of_mem_accepted hacc
    exact ⟨⟨e.id, huse, he, rfl⟩, hk, (h.receipt_isAccepted hs he).mpr hacc⟩

theorem Verified.mem_evaluationsV2 {x e : Record} {d : EvaluationDataV2} :
    (e, d) ∈ P.evaluationsV2 (r.usedEvaluations s x) ↔ P.UsesEvaluation r.records x e d := by
  simp only [Platform.evaluationsV2, List.mem_filterMap, h.mem_usedEvaluations hs,
    Option.map_eq_some_iff, Prod.mk.injEq]
  constructor
  · rintro ⟨e', ⟨hacc, hk, huse⟩, d', hd, rfl, rfl⟩
    exact ⟨hacc, hk, huse, hd⟩
  · rintro ⟨hacc, hk, huse, hd⟩
    exact ⟨e, ⟨hacc, hk, huse⟩, d, hd, rfl, rfl⟩

theorem Verified.requirementRequest_eq {id request : RecordId} :
    r.requirementRequest s id = some request ↔
      ∃ q, P.RequirementOf r.records request q ∧ q.id = id := by
  simp only [Receipt.requirementRequest, Option.bind_eq_some_iff, h.receipt_byId hs]
  constructor
  · rintro ⟨q, ⟨hq, rfl⟩, hcause⟩
    split at hcause
    · next hcond =>
      simp only [Bool.and_eq_true, decide_eq_true_eq] at hcond
      exact ⟨q, ⟨(h.receipt_isAccepted hs hq).mp hcond.2, hcond.1, hcause⟩, rfl⟩
    · cases hcause
  · rintro ⟨q, ⟨hacc, hk, hcause⟩, rfl⟩
    have hq := mem_of_mem_accepted hacc
    have hcond : (decide (q.kind = .requirement) && r.isAccepted s q.id) = true := by
      simp [hk, (h.receipt_isAccepted hs hq).mpr hacc]
    exact ⟨q, ⟨hq, rfl⟩, by rw [if_pos hcond, hcause]⟩

theorem Verified.mem_boundRequests {x : Record} {request : RecordId} :
    request ∈ P.boundRequests r s (r.usedEvaluations s x) ↔ P.BindsTo r.records x request := by
  unfold Platform.boundRequests
  rw [show (List.foldl ExtTreeSet.insert ∅ _ : IdSet) = idSetOf _ from rfl, mem_idSetOf]
  simp only [List.mem_flatMap, List.mem_filterMap, h.requirementRequest_eq hs]
  constructor
  · rintro ⟨⟨e, d⟩, he, id, hid, q, hq, rfl⟩
    exact ⟨e, d, (h.mem_evaluationsV2 hs).mp he, q, hq, hid⟩
  · rintro ⟨e, d, he, q, hq, hid⟩
    exact ⟨(e, d), (h.mem_evaluationsV2 hs).mpr he, q.id, hid, q, hq, rfl⟩

theorem Verified.mem_selectedSelections {x : Record} {chosen : List RecordId} :
    (x, chosen) ∈ P.selectedSelections r s ↔ x ∈ P.accepted r.records ∧ x.kind = .selection ∧
      ∃ d, P.decode SelectionData x.data = some d ∧ d.outcome = .selected chosen := by
  simp only [Platform.selectedSelections, List.mem_filterMap, List.mem_filter,
    Option.bind_eq_some_iff, Bool.and_eq_true, decide_eq_true_eq]
  constructor
  · rintro ⟨y, ⟨hy, hk, hacc⟩, d, hd, hout⟩
    split at hout
    · next hsel =>
      cases hout
      exact ⟨(h.receipt_isAccepted hs hy).mp hacc, hk, d, hd, hsel⟩
    · cases hout
  · rintro ⟨hacc, hk, d, hd, hsel⟩
    have hx := mem_of_mem_accepted hacc
    exact ⟨x, ⟨hx, hk, (h.receipt_isAccepted hs hx).mpr hacc⟩, d, hd, by rw [hsel]⟩

omit h hs in
/-- A set with one member, as a list. -/
theorem toList_eq_singleton {set : IdSet} {a : RecordId} :
    set.toList = [a] ↔ ∀ x, x ∈ set ↔ x = a := by
  constructor
  · intro hlist x
    rw [← ExtTreeSet.mem_toList, hlist, List.mem_singleton]
  · intro hmem
    have hnodup : set.toList.Nodup := set.distinct_toList.imp fun hne heq =>
      hne (by rw [heq]; exact ReflCmp.compare_self)
    apply List.perm_singleton.mp
    rw [List.perm_ext_iff_of_nodup hnodup (List.nodup_singleton a)]
    intro x
    rw [ExtTreeSet.mem_toList, hmem, List.mem_singleton]

/-- The claims the evaluator finds. -/
theorem Verified.mem_deliveryClaims {c : DeliveryClaim} :
    c ∈ P.deliveryClaims r s ↔ P.Claims r.records c.selection c.request ∧
      (∃ d, P.decode SelectionData c.selection.data = some d ∧ d.outcome = .selected c.chosen) ∧
      c.used = r.usedEvaluations s c.selection := by
  simp only [Platform.deliveryClaims, List.mem_filterMap]
  constructor
  · rintro ⟨⟨x, chosen⟩, hx, hclaim⟩
    obtain ⟨hacc, hk, d, hd, hsel⟩ := (h.mem_selectedSelections hs).mp hx
    split at hclaim
    · next request hrequest =>
      cases hclaim
      refine ⟨⟨hacc, hk, ⟨d, chosen, hd, hsel⟩, fun other => ?_⟩, ⟨d, hd, hsel⟩, rfl⟩
      rw [← h.mem_boundRequests hs]
      exact toList_eq_singleton.mp hrequest other
    · cases hclaim
  · rintro ⟨hclaim, ⟨d, hd, hsel⟩, hused⟩
    refine ⟨(c.selection, c.chosen),
      (h.mem_selectedSelections hs).mpr ⟨hclaim.accepted, hclaim.kind, d, hd, hsel⟩, ?_⟩
    have hone : (P.boundRequests r s (r.usedEvaluations s c.selection)).toList = [c.request] := by
      refine toList_eq_singleton.mpr fun other => ?_
      rw [h.mem_boundRequests hs]
      exact hclaim.request other
    simp only [hone]
    rw [← hused]

theorem Verified.mem_requiredRequirements {request id : RecordId} :
    id ∈ P.requiredRequirements r report s request ↔ ∃ q, P.RequirementOf r.records request q ∧
      q.id = id ∧ id ∉ report.retractedRecords ∧
      ∃ d, P.decode RequirementData q.data = some d ∧ d.required = true := by
  simp only [Platform.requiredRequirements, List.mem_map, List.mem_filter, Bool.and_eq_true,
    decide_eq_true_eq]
  constructor
  · rintro ⟨q, ⟨hq, ⟨⟨-, hret⟩, hrequest⟩, hrequired⟩, rfl⟩
    obtain ⟨q', hq', hid⟩ := (h.requirementRequest_eq hs).mp hrequest
    obtain rfl := h.eq_of_id_eq hs (mem_of_mem_accepted hq'.accepted) hq hid
    refine ⟨q', hq', rfl, hret, ?_⟩
    cases hd : P.decode RequirementData q'.data with
    | none => simp [hd] at hrequired
    | some d =>
      rw [hd] at hrequired
      exact ⟨d, rfl, hrequired⟩
  · rintro ⟨q, hq, rfl, hret, d, hd, hrequired⟩
    have hin := mem_of_mem_accepted hq.accepted
    refine ⟨q, ⟨hin, ⟨⟨⟨hq.kind, (h.receipt_isAccepted hs hin).mpr hq.accepted⟩, hret⟩,
      (h.requirementRequest_eq hs).mpr ⟨q, hq, rfl⟩⟩, ?_⟩, rfl⟩
    rw [hd]
    exact hrequired

end Tables

/-! ## The evaluated claim -/

section Pick

variable {claims : List DeliveryClaim} {request : RecordId}

instance : Std.Total Platform.claimLE :=
  ⟨fun a b => UInt64.le_total a.selection.time b.selection.time⟩

instance : IsTrans DeliveryClaim Platform.claimLE := ⟨fun _ _ _ hab hbc => UInt64.le_trans hab hbc⟩

/-- The last of a sorted list is a greatest one. -/
theorem getLast?_greatest {α : Type} {R : α → α → Prop} (hrefl : ∀ a, R a a) {l : List α}
    (hl : l.Pairwise R) {c : α} (hc : l.getLast? = some c) : c ∈ l ∧ ∀ x ∈ l, R x c := by
  obtain ⟨ys, rfl⟩ := List.getLast?_eq_some_iff.mp hc
  refine ⟨List.mem_append_right _ (List.mem_singleton_self c), fun x hx => ?_⟩
  rcases List.mem_append.mp hx with hx | hx
  · exact (List.pairwise_append.mp hl).2.2 x hx c (List.mem_singleton_self c)
  · rw [List.mem_singleton.mp hx]
    exact hrefl c

/-- If the claim that is evaluated stands, it is the latest that does. -/
theorem pickClaim_latest {c : DeliveryClaim}
    (hpick : Platform.pickClaim report claims request = some c)
    (hstands : Platform.stands report c.selection = true) :
    c ∈ claims ∧ c.request = request ∧ ∀ x ∈ claims, x.request = request →
      Platform.stands report x.selection = true → x.selection.time ≤ c.selection.time := by
  unfold Platform.pickClaim at hpick
  generalize hgroup : (claims.filter fun c => c.request = request).insertionSort Platform.claimLE =
    group at hpick
  have hmem : ∀ x, x ∈ group ↔ x ∈ claims ∧ x.request = request := by
    intro x
    rw [← hgroup, List.mem_insertionSort, List.mem_filter, decide_eq_true_eq]
  have hsorted : group.Pairwise Platform.claimLE := by
    rw [← hgroup]
    exact List.pairwise_insertionSort _ _
  have hstanding := hsorted.filter fun c => Platform.stands report c.selection
  have hrefl : ∀ a, Platform.claimLE a a := fun a => UInt64.le_refl _
  cases hlast : (group.filter fun c => Platform.stands report c.selection).getLast? with
  | some c' =>
    obtain rfl : c' = c := by
      simp only [hlast] at hpick
      exact Option.some.inj hpick
    obtain ⟨hin, hgreatest⟩ := getLast?_greatest hrefl hstanding hlast
    obtain ⟨hc, hreq⟩ := (hmem c').mp (List.mem_filter.mp hin).1
    refine ⟨hc, hreq, fun x hx hxreq hxs => ?_⟩
    exact hgreatest x (List.mem_filter.mpr ⟨(hmem x).mpr ⟨hx, hxreq⟩, hxs⟩)
  | none =>
    -- the claim itself stands, so the standing ones are not none
    have hpick' : group.getLast? = some c := by
      simp only [hlast] at hpick
      exact hpick
    have hin := (getLast?_greatest hrefl hsorted hpick').1
    rw [List.getLast?_eq_none_iff, List.filter_eq_nil_iff] at hlast
    exact absurd hstands (hlast c hin)

/-- A Request with a claim gets one evaluated. -/
theorem pickClaim_isSome {c : DeliveryClaim} (hc : c ∈ claims) :
    ∃ c', Platform.pickClaim report claims c.request = some c' := by
  have hin : c ∈ (claims.filter fun x => x.request = c.request).insertionSort Platform.claimLE := by
    rw [List.mem_insertionSort, List.mem_filter, decide_eq_true_eq]
    exact ⟨hc, rfl⟩
  have hlast := List.getLast?_eq_some_getLast (List.ne_nil_of_mem hin)
  simp only [Platform.pickClaim, hlast]
  generalize (List.filter _ _).getLast? = standing
  cases standing with
  | none => exact ⟨_, rfl⟩
  | some c' => exact ⟨c', rfl⟩

end Pick

/-! ## The clauses -/

/-- What the clauses say of one evaluated claim. -/
structure ClauseFacts (P : Platform) (r : Receipt) (report : Report) (s : State) (c : DeliveryClaim) :
    Prop where
  covered : Platform.covered report (P.requiredRequirements r report s c.request)
    (P.evaluationsV2 c.used) = true
  truthful : Platform.truthful (P.requiredRequirements r report s c.request)
    (P.evaluationsV2 c.used) = true
  bound : P.boundToCandidate r s c = true
  separated : Platform.separated r c = true
  stands : Platform.stands report c.selection = true

theorem clauseFacts (h : (P.deliveryClauses r report s).all ClauseResult.passed = true) :
    (P.evaluateBaseline r report).met = true ∧
      ∀ c ∈ P.evaluatedClaims r report s, ClauseFacts P r report s c := by
  simp only [Platform.deliveryClauses] at h
  split at h
  · exact absurd h (by decide)
  · simp only [List.all_cons, List.all_nil, Bool.and_true, Bool.true_and, Bool.and_eq_true,
      List.all_eq_true] at h
    obtain ⟨h1, h2, h3, h4, -, h6, h7⟩ := h
    exact ⟨h6, fun c hc => ⟨h1 c hc, h2 c hc, h3 c hc, h4 c hc, h7 c hc⟩⟩

/-- The baseline sets a threshold on Selections. -/
theorem threshold_of_met (h : (P.evaluateBaseline r report).met = true) :
    ∃ t, r.rules.evidenceThresholds[Kind.selection]? = some t ∧ t ≤ .inferred := by
  have hcore : (P.evaluateCoreV1 r report).status = .conformant := by
    simp only [ProfileResult.met, Bool.and_eq_true, decide_eq_true_eq] at h
    have hstatus := h.1
    unfold Platform.evaluateBaseline at hstatus
    split at hstatus
    · exact hstatus
    · exact hstatus
  simp only [Platform.evaluateCoreV1, Platform.finishProfile] at hcore
  split at hcore
  · next hall =>
    simp only [List.all_cons, List.all_nil, Bool.and_true, Bool.and_eq_true] at hall
    obtain ⟨-, -, ⟨-, hsel⟩, -⟩ := hall
    rw [Platform.thresholdSet, Option.any_eq_true] at hsel
    obtain ⟨t, ht, hle⟩ := hsel
    exact ⟨t, ht, of_decide_eq_true hle⟩
  · cases hcore

/-- A conformant evaluation, over the state of the log. -/
theorem clauses_of_conformant (hbuild : P.buildStateUnchecked r.records = some s)
    (hvalid : report.status ≠ .invalid)
    (h : (P.evaluateDelivery r report).status = .conformant) :
    (P.deliveryClauses r report s).all ClauseResult.passed = true := by
  simp only [Platform.evaluateDelivery, Platform.evaluateOver, if_neg hvalid, hbuild,
    Platform.finishProfile] at h
  split at h
  · assumption
  · cases h

/-! ## One claim -/

theorem mem_evaluatedClaims {c : DeliveryClaim} (hc : c ∈ P.deliveryClaims r s)
    {c' : DeliveryClaim}
    (hpick : Platform.pickClaim report (P.deliveryClaims r s) c.request = some c') :
    c' ∈ P.evaluatedClaims r report s := by
  simp only [Platform.evaluatedClaims]
  rw [List.mem_insertionSort, List.mem_filterMap]
  refine ⟨c.request, ?_, hpick⟩
  have hset : ∀ (l : List DeliveryClaim) (set : IdSet) (x : RecordId),
      x ∈ l.foldl (fun (set : IdSet) c => set.insert c.request) set ↔
        x ∈ set ∨ ∃ c ∈ l, c.request = x := by
    intro l
    induction l with
    | nil => simp
    | cons a l ih =>
      intro set x
      rw [List.foldl_cons, ih]
      simp only [ExtTreeSet.mem_insert, LawfulEqOrd.compare_eq_iff_eq, List.mem_cons,
        exists_eq_or_imp]
      tauto
  rw [ExtTreeSet.mem_toList, hset]
  exact .inr ⟨c, hc, rfl⟩

/-- A member of a list that is there if a payload and one of its fields are. -/
theorem mem_getD_bind {α β : Type} {o : Option α} {f : α → Option (List β)} {b : β} :
    b ∈ (o.bind f).getD [] ↔ ∃ a bs, o = some a ∧ f a = some bs ∧ b ∈ bs := by
  cases o with
  | none => simp
  | some a => cases hf : f a <;> simp [hf]

section Claim

variable (h : Verified P rules r.records s) (hs : P.HashSound r.records)
include h hs

theorem Verified.mem_onRecord {c : DeliveryClaim} {candidate : Record} {a : ArtifactRef} :
    (a.scheme, a.digest) ∈ P.onRecord r s c candidate ↔
      P.OnRecord r.records c.selection.thread candidate a := by
  simp only [Platform.onRecord, List.mem_map, List.mem_append, List.mem_flatMap, List.mem_filter,
    Prod.mk.injEq, or_and_right, exists_or, Platform.OnRecord, Bool.and_eq_true, decide_eq_true_eq]
  constructor
  · rintro (⟨b, hb, hab⟩ | ⟨b, ⟨x, ⟨hx, ⟨hk, hacc⟩, hthread⟩, hb⟩, hab⟩)
    · obtain ⟨d, artifacts, hd, hartifacts, hb⟩ := mem_getD_bind.mp hb
      exact .inl ⟨d, artifacts, hd, hartifacts, b, hb, hab⟩
    · obtain ⟨d, artifacts, hd, hartifacts, hb⟩ := mem_getD_bind.mp hb
      exact .inr ⟨x, (h.receipt_isAccepted hs hx).mp hacc, hk, hthread, d, artifacts, hd, hartifacts, b,
        hb, hab⟩
  · rintro (⟨d, artifacts, hd, hartifacts, b, hb, hab⟩ |
      ⟨x, hacc, hk, hthread, d, artifacts, hd, hartifacts, b, hb, hab⟩)
    · exact .inl ⟨b, mem_getD_bind.mpr ⟨d, artifacts, hd, hartifacts, hb⟩, hab⟩
    · have hx := mem_of_mem_accepted hacc
      exact .inr ⟨b, ⟨x, ⟨hx, ⟨hk, (h.receipt_isAccepted hs hx).mpr hacc⟩, hthread⟩,
        mem_getD_bind.mpr ⟨d, artifacts, hd, hartifacts, hb⟩⟩, hab⟩

/-- Every Evaluation in use is of the extended shape, judges the candidate, and rests on artifacts on
the record. -/
theorem Verified.judged_of_bound {c : DeliveryClaim} {candidate : Record}
    (hused : c.used = r.usedEvaluations s c.selection)
    (hchosen : Platform.chosenCandidate c = some candidate.id) (hin : candidate ∈ r.records)
    (hbound : P.boundToCandidate r s c = true) {e : Record} (he : e ∈ c.used) :
    ∃ d, P.UsesEvaluation r.records c.selection e d ∧ d.candidate = candidate.id ∧
      d.evidence ≠ [] ∧ ∀ a ∈ d.evidence, P.OnRecord r.records c.selection.thread candidate a := by
  simp only [Platform.boundToCandidate, hchosen, Option.bind_some,
    (h.receipt_byId hs).mpr ⟨hin, rfl⟩, Option.map_some, Option.getD_some, Bool.and_eq_true,
    decide_eq_true_eq, List.all_eq_true] at hbound
  obtain ⟨⟨-, hlength⟩, hall⟩ := hbound
  -- as many decode as there are, so each of them does
  obtain ⟨d, hd⟩ : ∃ d, P.decode EvaluationDataV2 e.data = some d := by
    have hsome := List.filterMap_length_eq_length.mp hlength e he
    rwa [Option.isSome_map, Option.isSome_iff_exists] at hsome
  have hmem : (e, d) ∈ P.evaluationsV2 c.used :=
    List.mem_filterMap.mpr ⟨e, he, by rw [hd]; rfl⟩
  obtain ⟨⟨hcand, hne⟩, hartifacts⟩ := hall (e, d) hmem
  refine ⟨d, (h.mem_evaluationsV2 hs).mp (hused ▸ hmem), Option.some.inj hcand, ?_, ?_⟩
  · simpa using hne
  · intro a ha
    exact (h.mem_onRecord hs).mp (hartifacts a ha)

/-- The candidate of a claim whose producer judged nothing. -/
theorem Verified.candidate_of_separated {c : DeliveryClaim} {d : SelectionData}
    (hclaim : P.Claims r.records c.selection c.request)
    (hd : P.decode SelectionData c.selection.data = some d) (hsel : d.outcome = .selected c.chosen)
    (hseparated : Platform.separated r c = true) :
    ∃ candidate ∈ P.accepted r.records, c.chosen = [candidate.id] ∧
      ∀ e ∈ c.used, e.author.id ≠ candidate.author.id := by
  rw [Platform.separated, Option.any_eq_true] at hseparated
  obtain ⟨candidate, hbind, hauthors⟩ := hseparated
  obtain ⟨id, hchosen, hget⟩ := Option.bind_eq_some_iff.mp hbind
  obtain ⟨hin, rfl⟩ := (h.receipt_byId hs).mp hget
  have hone : c.chosen = [candidate.id] := by
    unfold Platform.chosenCandidate at hchosen
    split at hchosen
    · next id hid =>
      cases hchosen
      exact hid
    · cases hchosen
  have hforms := h.considered_accepted hs hclaim.accepted hclaim.kind hd
  have hwinner : candidate.id ∈ d.outcome.winners := by
    rw [hsel, hone]
    exact List.mem_singleton_self _
  obtain ⟨y, hy, hid, -⟩ := hforms.1 _ (hforms.2 _ hwinner)
  refine ⟨candidate, h.eq_of_id_eq hs (mem_of_mem_accepted hy) hin hid ▸ hy, hone, ?_⟩
  simpa using hauthors

/-- **One evaluated claim**: its clauses, together with what the replay established. -/
theorem Verified.delivers (hret : report.retractedRecords = s.retractedRecords)
    (htaint : report.taintedRecords = s.taintedRecords) {t : Evidence}
    (ht : rules.evidenceThresholds[Kind.selection]? = some t) (hle : t ≤ .inferred)
    {request : RecordId} {c : DeliveryClaim}
    (hpick : Platform.pickClaim report (P.deliveryClaims r s) request = some c)
    (hfacts : ClauseFacts P r report s c) :
    ∃ sel candidate, P.Delivers r.records report request sel candidate := by
  obtain ⟨hc, rfl, hlatest⟩ := pickClaim_latest hpick hfacts.stands
  obtain ⟨hclaim, ⟨d, hd, hsel⟩, hused⟩ := (h.mem_deliveryClaims hs).mp hc
  obtain ⟨candidate, hcandidate, hone, hauthors⟩ :=
    h.candidate_of_separated hs hclaim hd hsel hfacts.separated
  have hstands := hfacts.stands
  simp only [Platform.stands, Bool.and_eq_true, decide_eq_true_eq] at hstands
  obtain ⟨⟨hsound, hunretracted⟩, huntainted⟩ := hstands
  have hclean : ∀ id, c.selection.restsOn id → report.Clean id := by
    intro id hid
    rw [Report.Clean, hret, htaint]
    exact h.clean_target hclaim.accepted (htaint ▸ huntainted) hid
  have hevaluations : ∀ e d, (e, d) ∈ P.evaluationsV2 c.used ↔
      P.UsesEvaluation r.records c.selection e d := by
    intro e d
    rw [hused]
    exact h.mem_evaluationsV2 hs
  have hwinner : c.selection.restsOn candidate.id := by
    refine h.winner_required hs hclaim.accepted hclaim.kind hd ?_
    rw [hsel, hone]
    exact List.mem_singleton_self _
  have huses : ∀ id ∈ refTargets .use c.selection.refs,
      ∃ x ∈ P.accepted r.records, x.id = id ∧ report.Clean id := by
    intro id hid
    have hrests := restsOn_of_mem rfl hid
    obtain ⟨x, hx, hxid⟩ := h.used_accepted hs hclaim.accepted hclaim.kind ht hle hrests
    exact ⟨x, hx, hxid, hclean id hrests⟩
  refine ⟨c.selection, candidate, hclaim, ⟨hsound, hunretracted, huntainted⟩, ?_,
    ⟨d, hd, by rw [hsel, hone]⟩, ⟨hcandidate, hclean _ hwinner⟩, huses, ?_, ?_⟩
  · -- a later sound claim would have been picked
    intro x hx hxsound hxclean
    obtain ⟨dx, chosen, hdx, hout⟩ := hx.selected
    refine hlatest ⟨x, c.request, chosen, r.usedEvaluations s x⟩ ?_ rfl ?_
    · exact (h.mem_deliveryClaims hs).mpr ⟨hx, ⟨dx, hdx, hout⟩, rfl⟩
    · simp only [Platform.stands, Bool.and_eq_true, decide_eq_true_eq]
      exact ⟨⟨hxsound, hxclean.1⟩, hxclean.2⟩
  · intro q hq hqret qd hqd hrequired
    have hrequiredId : q.id ∈ P.requiredRequirements r report s c.request :=
      (h.mem_requiredRequirements hs).mpr ⟨q, hq, rfl, hqret, qd, hqd, hrequired⟩
    constructor
    · have hcovered := hfacts.covered
      simp only [Platform.covered, List.all_eq_true, List.any_eq_true, Bool.and_eq_true,
        decide_eq_true_eq] at hcovered
      obtain ⟨⟨e, de⟩, he, ⟨-, hpassed⟩, hmentions⟩ := hcovered q.id hrequiredId
      exact ⟨e, de, (hevaluations e de).mp he, hmentions, hpassed⟩
    · intro e de he hmentions
      have htruthful := hfacts.truthful
      simp only [Platform.truthful, List.all_eq_true] at htruthful
      have hone := htruthful (e, de) ((hevaluations e de).mpr he)
      rw [Bool.or_eq_true, decide_eq_true_eq] at hone
      refine hone.resolve_left fun hnone => ?_
      rw [Bool.not_eq_true', List.any_eq_false] at hnone
      exact hnone q.id hmentions (decide_eq_true hrequiredId)
  · intro e he hek heuse
    -- a Used Evaluation is accepted, so it is among those the evaluator looked at
    obtain ⟨x, hx, hxid, -⟩ := huses e.id heuse
    obtain rfl := h.eq_of_id_eq hs (mem_of_mem_accepted hx) he hxid
    have hmem : x ∈ c.used := by
      rw [hused]
      exact (h.mem_usedEvaluations hs).mpr ⟨hx, hek, heuse⟩
    have hchosen : Platform.chosenCandidate c = some candidate.id := by
      rw [Platform.chosenCandidate, hone]
    obtain ⟨de, huse, hcand, hne, hartifacts⟩ :=
      h.judged_of_bound hs hused hchosen (mem_of_mem_accepted hcandidate) hfacts.bound hmem
    exact ⟨de, huse, hcand, hauthors x hmem, hne, hartifacts⟩

end Claim

/-! ## Validated receipts -/

/-- A receipt that does not validate as invalid replays, under the rules of its epoch. -/
theorem validated {limits : ValidationLimits} {bytes : Bytes} (hr : P.fromBytes bytes = some r)
    (hvalid : (P.validateWithLimits limits bytes).status ≠ .invalid) :
    ∃ schemas s, Verified P (P.rulesForEpoch r.rules schemas) r.records s ∧
      (P.validateWithLimits limits bytes).retractedRecords = s.retractedRecords ∧
      (P.validateWithLimits limits bytes).taintedRecords = s.taintedRecords := by
  have hinvalid : ∀ problem version, (Report.structuralFailure problem version).status = .invalid :=
    fun _ _ => rfl
  have hreport : P.validateWithLimits limits bytes = P.validateReceipt r := by
    unfold Platform.validateWithLimits at hvalid ⊢
    rw [hr] at hvalid ⊢
    split at hvalid
    · exact absurd (hinvalid _ _) hvalid
    · next hsize =>
      rw [if_neg hsize]
      cases hlimits : limits.check r with
      | some problem =>
        simp only [hlimits] at hvalid
        exact absurd (hinvalid _ _) hvalid
      | none => simp only [hlimits]
  rw [hreport] at hvalid ⊢
  unfold Platform.validateReceipt at hvalid ⊢
  split at hvalid
  · exact absurd (hinvalid _ _) hvalid
  next schemas hschemas =>
  split at hvalid
  · exact absurd (hinvalid _ _) hvalid
  next hdecl =>
  split at hvalid
  · exact absurd (hinvalid _ _) hvalid
  next hash hhash =>
  have haccept : P.Accepts (P.rulesForEpoch r.rules schemas) r.records := accept_of_statusOf hvalid
  obtain ⟨s, hv⟩ := accepts_iff.mp haccept
  refine ⟨schemas, s, hv, ?_, ?_⟩
  · show (P.verifyLog (P.rulesForEpoch r.rules schemas) r.records none).retractedRecords = _
    rw [hv.verifyLog_eq]
  · show (P.verifyLog (P.rulesForEpoch r.rules schemas) r.records none).taintedRecords = _
    rw [hv.verifyLog_eq]

/-- **A conformant delivery receipt means what it says.** -/
theorem delivery_receipt_delivers {limits : ValidationLimits} {bytes : Bytes}
    (hr : P.fromBytes bytes = some r) (hs : P.HashSound r.records)
    (hvalid : (P.validateWithLimits limits bytes).status ≠ .invalid)
    (hconforms : (P.evaluateDelivery r (P.validateWithLimits limits bytes)).status = .conformant)
    (request : RecordId) (hclaim : ∃ x, P.Claims r.records x request) :
    ∃ sel c, P.Delivers r.records (P.validateWithLimits limits bytes) request sel c := by
  obtain ⟨schemas, s, h, hret, htaint⟩ := validated hr hvalid
  obtain ⟨hmet, hfacts⟩ := clauseFacts (clauses_of_conformant h.run.build hvalid hconforms)
  obtain ⟨t, ht, hle⟩ := threshold_of_met hmet
  obtain ⟨x, hx⟩ := hclaim
  obtain ⟨d, chosen, hd, hsel⟩ := hx.selected
  have hc : (⟨x, request, chosen, r.usedEvaluations s x⟩ : DeliveryClaim) ∈ P.deliveryClaims r s :=
    (h.mem_deliveryClaims hs).mpr ⟨hx, ⟨d, hd, hsel⟩, rfl⟩
  obtain ⟨c, hpick⟩ : ∃ c, Platform.pickClaim (P.validateWithLimits limits bytes)
      (P.deliveryClaims r s) request = some c := pickClaim_isSome hc
  exact h.delivers hs hret htaint ht hle hpick (hfacts c (mem_evaluatedClaims hc hpick))

/-! ## A delivery -/

/-- The sample rules with the thresholds the profile asks for. -/
def deliveryRules : VerifierRules :=
  { sampleRules with
    evidenceThresholds := (((∅ : ExtTreeMap Kind Evidence).insert .candidate .reported).insert
      .evaluation .reported).insert .selection .inferred }

theorem deliveryRules_frozen : reference.Frozen deliveryRules := sampleRules_frozen

def deliveredArtifact : ArtifactRef := ⟨"sha256", String.ofList (List.replicate 64 'a'), none⟩

def deliveryRequirement : Record :=
  sampleSubject 0xadd3b5cbaeb044ca2932537774a0916df1c5ad97b6b612ec40ba542d82d2b761 3 byUser
    .requirement schemaRequirement
    (payload (⟨"k", "d", true, none, .userAuthored⟩ : RequirementData)) [⟨.cause, sampleRequest.id⟩]

def deliveryCandidate : Record :=
  sampleSubject 0x17e024085353bce67de6248cce511157e7d8233120643679635dd6d2c2c2fb78 5 byAgent
    .candidate schemaCandidate
    (payload (⟨⟨⟨.sha1, String.ofList (List.replicate 40 'a'), none⟩, none, .reported⟩, .root, none,
      none, some [deliveredArtifact]⟩ : CandidateData)) []

/-- The Requirement, checked against the Candidate by the user. -/
def deliveryEvaluation : Record :=
  sampleSubject 0x321f858672fa7bec983c3560aad496feb973dcce0dfbb0e94c671710620f4118 7 byUser
    .evaluation schemaEvaluationV2
    (payload (⟨deliveryCandidate.id, "c", none, .passed, ⟨"e", none, some 0, some 0⟩, .declared,
      [deliveredArtifact], [deliveryRequirement.id]⟩ : EvaluationDataV2))
    [⟨.use, deliveryCandidate.id⟩, ⟨.use, deliveryRequirement.id⟩]

def deliverySelection : Record :=
  { sampleSubject 0x785688649c24384ff4c7c4492d03ac08898dcb5537562dd357b9080620ee62b9 9 byUser
    .selection schemaSelection
    (payload (⟨"o", [deliveryCandidate.id], .selected [deliveryCandidate.id], none⟩ : SelectionData))
    [⟨.use, deliveryEvaluation.id⟩, ⟨.require, deliveryCandidate.id⟩] with evidence := .inferred }

def deliveryLog : List Record :=
  sampleRound ++
  [deliveryRequirement,
    acceptance 0x52afc8564a9d1c0b7d51e67c4ebb5f7ca1fb266e76d6ac581e6b710611effcce deliveryRequirement,
    deliveryCandidate,
    acceptance 0xbdc300ab60cfefc657401dcde8b9127081b7a54a4ed7a5c69c9264c741f39efb deliveryCandidate,
    deliveryEvaluation,
    acceptance 0x6f878a757d3bb596f539ca0c3467df419e773051c36c1d516d88a0b8cb44afc5 deliveryEvaluation,
    deliverySelection,
    acceptance 0x45905fe014255a8d762dd4e29cb7fcbc1450c651b080a2a8a6f43f9e2f455acd deliverySelection]

def deliveryReceipt : Receipt := Receipt.new deliveryLog deliveryRules

/-- What the replay of the delivery finds: nothing retracted, tainted or unsound. -/
def cleanVerdict : LogVerdict := ⟨.accept, none, 10, 10, ∅, ∅, {}⟩

/-- The Request, the Requirement and the Candidate, replayed. -/
def offerHistory : reference.AcceptedLog deliveryRules where
  val := deliveryLog.take 6
  property := by decide +kernel

def deliveryHistory : reference.AcceptedLog deliveryRules where
  val := deliveryLog
  property := offerHistory.property.extend (by decide) (by decide +kernel)

theorem deliveryLog_accepts : reference.Accepts deliveryRules deliveryLog := deliveryHistory.property

theorem verifyLog_deliveryLog : reference.verifyLog deliveryRules deliveryLog none = cleanVerdict := by
  obtain ⟨s, hv⟩ := accepts_iff.mp deliveryLog_accepts
  have hclean : (reference.buildStateUnchecked deliveryLog).map (fun s =>
      (s.retractedRecords, s.taintedRecords, reference.deriveStanding deliveryLog s)) =
      some (∅, ∅, {}) := by
    decide +kernel
  rw [hv.run.build, Option.map_some, Option.some.injEq, Prod.mk.injEq, Prod.mk.injEq] at hclean
  obtain ⟨hretracted, htainted, hstanding⟩ := hclean
  rw [hv.verifyLog_eq, hretracted, htainted, hstanding]
  rfl

theorem deliveryLog_hashSound : reference.HashSound deliveryLog := by
  obtain ⟨s, hv⟩ := accepts_iff.mp deliveryLog_accepts
  refine hashSound_of_nodup hv.ids ?_ (by decide +kernel)
  rw [map_schemaId]
  decide +kernel

/-- The rules of the current epoch are those of the delivery. -/
theorem verifyLog_deliveryLog_epoch :
    reference.verifyLog (reference.rulesForEpoch deliveryRules allSchemas) deliveryLog none =
      cleanVerdict := by
  obtain ⟨s, hv⟩ := accepts_iff.mp deliveryLog_accepts
  have hepoch := hv.forEpoch (epochReasons_of_frozen deliveryRules_frozen)
  rw [hepoch.verifyLog_eq, ← hv.verifyLog_eq]
  exact verifyLog_deliveryLog

/-- The profile reads the report, and not the hash of the rules in it. -/
theorem evaluateDelivery_hash (hash other : Hash256) (verdict : LogVerdict) :
    P.evaluateDelivery r (P.reportOf r hash verdict) =
      P.evaluateDelivery r (P.reportOf r other verdict) := by
  rfl

theorem deliveryReceipt_conformant (hash : Hash256) :
    (reference.evaluateDelivery deliveryReceipt
      (reference.reportOf deliveryReceipt hash cleanVerdict)).status = .conformant := by
  rw [evaluateDelivery_hash hash 0]
  decide +kernel

theorem deliveryReceipt_claims :
    ((reference.buildStateUnchecked deliveryLog).map fun s =>
      (reference.deliveryClaims deliveryReceipt s).map fun c => (c.selection.id, c.request)) =
      some [(deliverySelection.id, sampleRequest.id)] := by
  decide +kernel

/-- The receipt of a delivery: its Requirement passed, on an artifact the Candidate binds. -/
theorem deliveryReceipt_delivers : ∃ bytes, reference.toBytes deliveryReceipt = some bytes ∧
    ∃ sel c, reference.Delivers deliveryLog
      (reference.validateWithLimits (limitsOf bytes.length) bytes) sampleRequest.id sel c := by
  have hsome : (reference.toBytes deliveryReceipt).isSome = true := by decide +kernel
  obtain ⟨bytes, hbytes⟩ := Option.isSome_iff_exists.mp hsome
  have hlimits : (limitsOf bytes.length).check deliveryReceipt = none := by
    rw [check_limitsOf]
    decide +kernel
  obtain ⟨hash, hhash⟩ := rulesHash_of_toBytes hbytes
  change reference.sha256Canonical deliveryRules = some hash at hhash
  have hreport : reference.validateWithLimits (limitsOf bytes.length) bytes =
      reference.reportOf deliveryReceipt hash cleanVerdict := by
    rw [validateWithLimits_toBytes reference_readsReceipts hbytes (Nat.le_refl _) hlimits,
      deliveryReceipt, validateReceipt_new hhash, verifyLog_deliveryLog_epoch]
  obtain ⟨s, hv⟩ := accepts_iff.mp deliveryLog_accepts
  refine ⟨bytes, hbytes, delivery_receipt_delivers (r := deliveryReceipt)
    (fromBytes_toBytes reference_readsReceipts hbytes) deliveryLog_hashSound ?_ ?_ _ ?_⟩
  · rw [hreport]
    show Platform.statusOf cleanVerdict ≠ .invalid
    decide +kernel
  · rw [hreport]
    exact deliveryReceipt_conformant hash
  · have hclaims := deliveryReceipt_claims
    rw [hv.run.build, Option.map_some, Option.some.injEq] at hclaims
    obtain ⟨c, hc, hids⟩ := List.mem_map.mp (hclaims ▸ List.mem_singleton_self _)
    refine ⟨c.selection, ?_⟩
    rw [show sampleRequest.id = c.request from (congrArg Prod.snd hids).symm]
    exact ((hv.mem_deliveryClaims (r := deliveryReceipt) deliveryLog_hashSound).mp hc).1

end Bellbook
