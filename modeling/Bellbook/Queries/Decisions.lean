import Bellbook.Receipt.Delivery
import Bellbook.Verify.Registers
import Bellbook.Verify.SingleUse

/-!
# What a decision certifies

A Selection names Candidates by id in its payload, and Evaluations and an Approval by ref. `DecisionForm`
says what an accepted one is worth: which Candidates it considered, on whose judgment, by whose approval and
as a reaffirmation of what. The ids of its winners are Require targets and those of its Evaluations Use
targets, so a Selection that stands has only winners, judgments and judged Candidates that stand
(`selection_certified`).
-/

namespace Bellbook

open Std Relation

namespace Platform

variable (P : Platform)

/-- An accepted Candidate of the space of `x`, earlier than `x`. -/
structure Offered (L : List Record) (x : Record) (id : RecordId) (c : Record) : Prop where
  accepted : c ∈ P.accepted L
  id : c.id = id
  kind : c.kind = .candidate
  space : c.space = x.space
  earlier : c.time.toNat < x.time.toNat

/-- An accepted Evaluation that `x` Uses, and the Candidate it judges. -/
structure Judgment (L : List Record) (x e c : Record) (criterion outcome : String) : Prop where
  accepted : e ∈ P.accepted L
  kind : e.kind = .evaluation
  used : e.id ∈ refTargets .use x.refs
  summary : P.evaluationSummary e.schema e.data = some (c.id, criterion, outcome)
  offered : P.Offered L e c.id c
  uses : c.id ∈ refTargets .use e.refs

/-- The Approval of a decision by its author, unexpired. -/
structure DecisionApproval (L : List Record) (x : Record) (d : SelectionData) (p : Record)
    (approval : ApprovalData) : Prop where
  accepted : p ∈ P.accepted L
  approves : P.Approves p approval
  subject : approval.targetAction =
    P.selectionApprovalSubjectHash x.author.id (findReplaceRef x.refs) d
  actor : approval.actorId = some x.author.id
  unexpired : ∀ e, approval.expiry = some e → x.time < e

/-- What an accepted Selection is worth. -/
structure DecisionForm (rules : VerifierRules) (L : List Record) (x : Record) (d : SelectionData) :
    Prop where
  payload : P.decode SelectionData x.data = some d
  considered : d.considered ≠ [] ∧ d.considered.Nodup ∧ d.considered.length ≤ rules.maxConsidered.toNat
  offered : ∀ id ∈ d.considered, ∃ c, P.Offered L x id c
  winners : d.outcome.winners.Nodup ∧ ∀ id ∈ d.outcome.winners, id ∈ d.considered
  chosen : d.outcome = .none ∨ d.outcome.winners ≠ []
  bound : rules.minBinding = .manifest → ∀ id ∈ d.outcome.winners, ∃ c cd, P.Offered L x id c ∧
    P.decode CandidateData c.data = some cd ∧ cd.source.binding = .manifest
  judged : ∀ e ∈ P.accepted L, e.kind = .evaluation → e.id ∈ refTargets .use x.refs →
    ∃ c criterion outcome, P.Judgment L x e c criterion outcome ∧ c.id ∈ d.considered
  evaluated : rules.selectionRequiresEvaluation = true → d.outcome.winners ≠ [] →
    ∃ e ∈ P.accepted L, e.kind = .evaluation ∧ e.id ∈ refTargets .use x.refs
  required : ∃ approval : Option Record,
    (∀ id, id ∈ refTargets .require x.refs ↔
      id ∈ d.outcome.winners ∨ ∃ p, approval = some p ∧ p.id = id) ∧
    (rules.selectionRequiresApproval = true ↔ approval.isSome = true) ∧
    ∀ p, approval = some p → ∃ data, P.DecisionApproval L x d p data
  reaffirms : ∀ id, findReplaceRef x.refs = some id →
    (∃ y ∈ P.accepted L, y.id = id ∧ y.kind = .selection ∧ y.time.toNat < x.time.toNat ∧
      ∃ yd, P.decode SelectionData y.data = some yd ∧ yd.objective = d.objective) ∧
    (rules.reaffirmationActors.isEmpty = false → x.author.id ∈ rules.reaffirmationActors)

end Platform

variable {P : Platform} {rules : VerifierRules} {L : List Record} {s t : State}

/-! ## At the position of the record -/

section Position

variable (h : Verified P rules L s) (hs : P.HashSound L) {i : Nat} (hi : i < L.length)
  (ht : Verified P rules (L.take i) t)
include h hs hi ht

theorem Verified.offered_of_resolve {id : RecordId} {c : Record}
    (hres : resolveCandidate (priorView (L.take i)) t L[i] id = some c) : P.Offered L L[i] id c := by
  rw [resolveCandidate, Option.filter_eq_some_iff] at hres
  obtain ⟨hfind, hprops⟩ := hres
  simp only [Bool.and_eq_true, decide_eq_true_eq] at hprops
  obtain ⟨⟨hspace, hk⟩, hacc⟩ := hprops
  obtain ⟨hc, hid, hlt⟩ := h.found_before hs hi ht hfind hacc
  exact ⟨hc, hid, hk, hspace, hlt⟩

/-- The Evaluations the check finds are the accepted ones the record Uses. -/
theorem Verified.mem_used_at
    (hcheck : P.checkSubject rules (priorView (L.take i)) t L[i] = none) {e : Record} :
    e ∈ Platform.usedEvaluations (priorView (L.take i)) t L[i] ↔
      e ∈ P.accepted L ∧ e.kind = .evaluation ∧ e.id ∈ refTargets .use L[i].refs := by
  simp only [Platform.usedEvaluations, List.mem_filter, List.mem_filterMap, Bool.and_eq_true, decide_eq_true_eq]
  constructor
  · rintro ⟨⟨id, hid, hfind⟩, hk, hacc⟩
    obtain ⟨he, rfl, -⟩ := h.found_before hs hi ht hfind hacc
    exact ⟨he, hk, hid⟩
  · rintro ⟨he, hk, hid⟩
    -- the target of the ref was found before
    obtain ⟨ref, href, -, htarget⟩ := mem_refTargets.mp hid
    have htargets := (checkSubject_passes hcheck).targets ref href
    simp only [Platform.checkRef, orReject_eq_none] at htargets
    obtain ⟨y, hfind, -⟩ := htargets
    obtain ⟨hy, hyid⟩ := find_mem hfind
    have hye : y = e := h.eq_of_id_eq hs (List.take_subset _ _ hy) (mem_of_mem_accepted he)
      (hyid.trans htarget)
    subst hye
    have hacc := h.accepted_take ht he hy
    exact ⟨⟨y.id, hid, htarget ▸ hfind⟩, hk, ht.run.mem_acceptedRecords.mpr ⟨y, hacc, rfl⟩⟩

/-- An accepted Evaluation judges an earlier Candidate and Uses it. -/
theorem Verified.judged_at (hk : L[i].kind = .evaluation)
    (hcheck : P.checkSubject rules (priorView (L.take i)) t L[i] = none)
    {summary : RecordId × String × String}
    (hsummary : P.evaluationSummary L[i].schema L[i].data = some summary) :
    ∃ c, P.Offered L L[i] summary.1 c ∧ c.id ∈ refTargets .use L[i].refs := by
  have hkind := (checkSubject_passes hcheck).kind
  simp only [Platform.checkKindSpecific, hk, Platform.checkEvaluation] at hkind
  have hfound {id : RecordId} {c : Record}
      (hres : resolveCandidate (priorView (L.take i)) t L[i] id = some c) (huses : L[i].uses id = true) :
      ∃ c, P.Offered L L[i] id c ∧ c.id ∈ refTargets .use L[i].refs := by
    have hoffered := h.offered_of_resolve hs hi ht hres
    refine ⟨c, hoffered, ?_⟩
    simp only [Record.uses, List.any_eq_true, Bool.and_eq_true, decide_eq_true_eq] at huses
    obtain ⟨ref, href, htype, htarget⟩ := huses
    exact mem_refTargets.mpr ⟨ref, href, htype, by rw [htarget, hoffered.id]⟩
  have hdist := hs.schemasDistinct
  unfold Platform.evaluationSummary at hsummary
  split at hkind
  · -- the extended shapes
    next hschema =>
    simp only [Platform.checkEvaluationV2, orReject_eq_none, orElse_none_iff, rejectIf_eq_none,
      Bool.not_eq_false] at hkind
    obtain ⟨d, hd, -, c, hres, huses, -⟩ := hkind
    have hne : L[i].schema ≠ P.schemaId schemaEvaluation := by
      intro heq
      rcases hschema with hschema | hschema
      · exact absurd (hdist _ (by decide) _ (by decide) (heq.symm.trans hschema)) (by decide)
      · exact absurd (hdist _ (by decide) _ (by decide) (heq.symm.trans hschema)) (by decide)
    simp only [if_neg hne, if_pos hschema, hd, Option.map_some, Option.some.injEq] at hsummary
    subst hsummary
    exact hfound hres huses
  · next hschema =>
    simp only [orReject_eq_none, rejectIf_eq_none, Bool.not_eq_false] at hkind
    obtain ⟨d, hd, c, hres, huses⟩ := hkind
    simp only [hschema, if_false, Option.ite_none_right_eq_some, hd, Option.map_some,
      Option.some.injEq] at hsummary
    obtain ⟨-, rfl⟩ := hsummary
    exact hfound hres huses

omit h in
/-- The Approval that the check resolves. -/
theorem Verified.approval_at {d : SelectionData} {approval : Option RecordId}
    (hok : P.resolveSelectionApproval rules (priorView (L.take i)) t L[i] d = .ok approval) :
    ∃ p : Option Record, p.map Record.id = approval ∧
      (rules.selectionRequiresApproval = true ↔ p.isSome = true) ∧
      ∀ q, p = some q → ∃ data, P.DecisionApproval L L[i] d q data := by
  unfold Platform.resolveSelectionApproval at hok
  split at hok
  · next hno =>
    cases hok
    exact ⟨none, rfl, by simp [hno], nofun⟩
  next hrules =>
  split at hok
  · cases hok
  next hash hhash =>
  split at hok
  · cases hok
  next id hslot =>
  split at hok
  · cases hok
  split at hok
  · cases hok
  split at hok
  · cases hok
  next q hfind =>
  split at hok
  · cases hok
  next data hdata =>
  split at hok
  · cases hok
  next hactor =>
  split at hok
  · cases hok
  next hexpiry =>
  cases hok
  -- the slot is that of an accepted Approval of the hash
  obtain ⟨p, hp, hpid, data', happroves, htarget⟩ := ht.authorityInv.exact hash id hslot
  obtain ⟨hq, hqid⟩ := find_mem hfind
  obtain rfl : q = p := ht.eq_of_id_eq (hs.mono (List.take_subset _ _)) hq (mem_of_mem_accepted hp)
    (hqid.trans hpid.symm)
  obtain rfl : data' = data := Option.some.inj (happroves.2.symm.trans hdata)
  have hacc : q ∈ P.accepted L := accepted_mono ht.run (List.take_prefix _ _) hp
  refine ⟨some q, by rw [Option.map_some, hpid], by simpa using hrules, ?_⟩
  rintro q' hq'
  cases hq'
  exact ⟨data', hacc, happroves, htarget.trans hhash.symm, not_not.mp hactor,
    expired_eq_false.mp (by simpa using hexpiry)⟩

end Position

/-! ## The form of a decision -/

section Form

variable (h : Verified P rules L s) (hs : P.HashSound L)
include h hs

/-- A readable judgment of an accepted Evaluation. -/
theorem Verified.judgment {x e : Record} (he : e ∈ P.accepted L) (hk : e.kind = .evaluation)
    (hused : e.id ∈ refTargets .use x.refs) {subject : RecordId} {criterion outcome : String}
    (hsummary : P.evaluationSummary e.schema e.data = some (subject, criterion, outcome)) :
    ∃ c, P.Judgment L x e c criterion outcome ∧ c.id = subject := by
  obtain ⟨i, hi, rfl⟩ := List.mem_iff_getElem.mp (mem_of_mem_accepted he)
  obtain ⟨t, ht, hcheck⟩ := h.accepted_at hs hi he
  obtain ⟨c, hoffered, huses⟩ := h.judged_at hs hi ht hk hcheck hsummary
  have hid : c.id = subject := hoffered.id
  subst hid
  exact ⟨c, ⟨he, hk, hused, hsummary, hoffered, huses⟩, rfl⟩

omit h hs in
theorem winners_of_checkOutcome {prior : Prior} {d : SelectionData} {n : Nat}
    (hc : P.checkOutcome rules prior d n = none) :
    (d.outcome.winners.Nodup ∧ ∀ id ∈ d.outcome.winners, id ∈ d.considered) ∧
      (d.outcome = .none ∨ d.outcome.winners ≠ []) ∧
      (rules.minBinding = .manifest → ∀ id ∈ d.outcome.winners, P.checkWinnerBinding prior id = none) ∧
      (rules.selectionRequiresEvaluation = true → d.outcome.winners ≠ [] → n ≠ 0) := by
  unfold Platform.checkOutcome at hc
  cases hout : d.outcome with
  | none =>
    have hnil : (SelectionOutcome.none).winners = [] := rfl
    exact ⟨⟨by simp [hnil], by simp [hnil]⟩, .inl rfl, by simp [hnil], by simp [hnil]⟩
  | selected candidates =>
    have hwinners : (SelectionOutcome.selected candidates).winners = candidates := rfl
    simp only [hout, orElse_none_iff, rejectIf_eq_none, not_or, not_not, Bool.not_eq_false,
      List.all_eq_true, decide_eq_true_eq, not_and] at hc
    obtain ⟨⟨hne, hnodup, hsub⟩, hbound, hevaluated⟩ := hc
    refine ⟨⟨hnodup, hsub⟩, .inr hne, fun hmin id hid => ?_, fun hreq _ => hevaluated hreq⟩
    rw [if_pos hmin, List.findSome?_eq_none_iff] at hbound
    apply hbound
    rw [ExtTreeSet.mem_toList, mem_idSetOf]
    exact hid

/-- **What an accepted Selection is worth.** -/
theorem Verified.decision_form {x : Record} (hx : x ∈ P.accepted L) (hk : x.kind = .selection) :
    ∃ d, P.DecisionForm rules L x d := by
  obtain ⟨i, hi, rfl⟩ := List.mem_iff_getElem.mp (mem_of_mem_accepted hx)
  obtain ⟨t, ht, hcheck⟩ := h.accepted_at hs hi hx
  have hkind := (checkSubject_passes hcheck).kind
  simp only [Platform.checkKindSpecific, hk, Platform.checkSelection, orReject_eq_none,
    orElse_none_iff, List.findSome?_eq_none_iff, rejectIf_eq_none, not_or, not_not] at hkind
  obtain ⟨d, hd, ⟨hne, hmax⟩, hnodup, hresolve, hjudged, houtcome, hrest⟩ := hkind
  have hoffered : ∀ id ∈ d.considered, ∃ c, P.Offered L L[i] id c := by
    intro id hid
    obtain ⟨c, hres, -⟩ := hresolve id hid
    exact ⟨c, h.offered_of_resolve hs hi ht hres⟩
  have hused {e : Record} := h.mem_used_at hs hi ht hcheck (e := e)
  obtain ⟨hwinners, hchosen, hbound, hevaluated⟩ := winners_of_checkOutcome houtcome
  split at hrest
  · cases hrest
  next approval hok =>
  simp only [orElse_none_iff, rejectIf_eq_none, not_not] at hrest
  obtain ⟨hrequired, hreaffirms⟩ := hrest
  refine ⟨d, hd, ⟨hne, hnodup, Nat.le_of_not_lt hmax⟩, hoffered, hwinners, hchosen, ?_, ?_, ?_, ?_, ?_⟩
  · intro hmin id hid
    have hwinner := hbound hmin id hid
    simp only [Platform.checkWinnerBinding, orReject_eq_none, rejectIf_eq_none, not_not] at hwinner
    obtain ⟨c, hfind, cd, hcd, hmanifest⟩ := hwinner
    obtain ⟨c', hc'⟩ := hoffered id (hwinners.2 id hid)
    obtain ⟨hc, hcid⟩ := find_mem hfind
    obtain rfl := h.eq_of_id_eq hs (List.take_subset _ _ hc) (mem_of_mem_accepted hc'.accepted)
      (hcid.trans hc'.id.symm)
    exact ⟨c, cd, hc', hcd, hmanifest⟩
  · intro e he hek hid
    have hsummary := hjudged e (hused.mpr ⟨he, hek, hid⟩)
    obtain ⟨⟨subject, criterion, outcome⟩, hsummary, hin⟩ := hsummary
    obtain ⟨c, hjudgment, rfl⟩ := h.judgment hs he hek hid hsummary
    exact ⟨c, criterion, outcome, hjudgment, hin⟩
  · intro hreq hsome
    obtain ⟨e, he⟩ := List.exists_mem_of_length_pos (Nat.pos_of_ne_zero (hevaluated hreq hsome))
    exact ⟨e, hused.mp he⟩
  · obtain ⟨p, hp, hiff, hall⟩ := Verified.approval_at hs hi ht hok
    refine ⟨p, fun id => ?_, hiff, hall⟩
    have hmem : id ∈ idSetOf (refTargets .require L[i].refs) ↔
        id ∈ idSetOf (d.outcome.winners ++ approval.toList) := by rw [hrequired]
    rw [mem_idSetOf, mem_idSetOf, List.mem_append] at hmem
    rw [hmem, ← hp]
    simp
  · intro id hid
    obtain ⟨y, hfound⟩ := replacesFound hcheck hid
    obtain ⟨hy, hyid, hlt⟩ := h.found_before hs hi ht hfound.find hfound.accepted
    simp only [Platform.checkReaffirmation, hid, hfound.find, orElse_none_iff, rejectIf_eq_none,
      orReject_eq_none, not_and, not_not] at hreaffirms
    obtain ⟨⟨yd, hyd, hobjective⟩, hactor⟩ := hreaffirms
    exact ⟨⟨y, hy, hyid, hfound.kind.trans hk, hlt, yd, hyd, hobjective⟩, hactor⟩

end Form

/-! ## Decisions that stand -/

/-- What a standing record depends on stands. -/
theorem standsIn_of_depends {x y : Record} (h : P.StandsIn L x) (hpath : ReflTransGen (P.Depends L) x y) :
    P.StandsIn L y := by
  rcases reflTransGen_iff_eq_or_transGen.mp hpath with rfl | hpath
  · exact h
  · constructor
    · intro hret
      exact h.2 ⟨y, hpath, hret⟩
    · rintro ⟨z, hyz, hret⟩
      exact h.2 ⟨z, hpath.trans hyz, hret⟩

theorem depends_of_mem {x y : Record} {type : RefType} (htype : type.epistemic = true)
    (hx : x ∈ P.accepted L) (hy : y ∈ L) (hid : y.id ∈ refTargets type x.refs) : P.Depends L x y :=
  ⟨hx, hy, restsOn_of_mem htype hid⟩

/-- **A decision that stands rests on what stands.** An accepted Selection has the form of a decision. If it is
neither retracted nor tainted, then neither are the Candidates it chose, the accepted Evaluations it Uses, the
Candidates those judge, and its Approval. -/
theorem selection_certified (hs : P.HashSound L) (h : P.Accepts rules L) {x : Record}
    (hx : x ∈ P.accepted L) (hk : x.kind = .selection) :
    ∃ d, P.DecisionForm rules L x d ∧ (P.StandsIn L x →
      (∀ id ∈ d.outcome.winners, ∃ c, P.Offered L x id c ∧ P.StandsIn L c) ∧
      (∀ e c criterion outcome, P.Judgment L x e c criterion outcome → P.StandsIn L e ∧ P.StandsIn L c) ∧
      ∀ p data, P.DecisionApproval L x d p data → p.id ∈ refTargets .require x.refs → P.StandsIn L p) := by
  obtain ⟨s, hv⟩ := accepts_iff.mp h
  obtain ⟨d, hform⟩ := hv.decision_form hs hx hk
  refine ⟨d, hform, fun hstands => ⟨?_, ?_, ?_⟩⟩
  · intro id hid
    obtain ⟨c, hc⟩ := hform.offered id (hform.winners.2 id hid)
    obtain ⟨approval, hrequired, -⟩ := hform.required
    have hmem : c.id ∈ refTargets .require x.refs := by
      rw [hc.id]
      exact (hrequired id).mpr (.inl hid)
    have hdep := depends_of_mem rfl hx (mem_of_mem_accepted hc.accepted) hmem
    exact ⟨c, hc, standsIn_of_depends hstands (.single hdep)⟩
  · intro e c criterion outcome hjudgment
    have hxe := depends_of_mem rfl hx (mem_of_mem_accepted hjudgment.accepted) hjudgment.used
    have hec := depends_of_mem rfl hjudgment.accepted
      (mem_of_mem_accepted hjudgment.offered.accepted) hjudgment.uses
    exact ⟨standsIn_of_depends hstands (.single hxe),
      standsIn_of_depends hstands ((ReflTransGen.single hxe).tail hec)⟩
  · intro p data happroval hmem
    have hdep := depends_of_mem rfl hx (mem_of_mem_accepted happroval.accepted) hmem
    exact standsIn_of_depends hstands (.single hdep)

theorem accepted_deliveryLog : reference.accepted deliveryLog =
    [sampleRequest, deliveryRequirement, deliveryCandidate, deliveryEvaluation, deliverySelection] := by
  decide +kernel

theorem deliveryLog_stands (x : Record) : reference.StandsIn deliveryLog x := by
  have hret (id : RecordId) : ¬reference.RetractedIn deliveryLog id := by
    rintro ⟨a, ha, hk, -⟩
    rw [accepted_deliveryLog] at ha
    simp only [List.mem_cons, List.not_mem_nil, or_false] at ha
    rcases ha with rfl | rfl | rfl | rfl | rfl <;> cases hk
  exact ⟨hret x.id, fun ⟨y, _, hy⟩ => hret y.id hy⟩

theorem deliverySelection_certified : ∃ d,
    reference.DecisionForm deliveryRules deliveryLog deliverySelection d ∧
      ∀ id ∈ d.outcome.winners, ∃ c, reference.Offered deliveryLog deliverySelection id c ∧
        reference.StandsIn deliveryLog c := by
  have hx : deliverySelection ∈ reference.accepted deliveryLog := by
    rw [accepted_deliveryLog]
    simp
  obtain ⟨d, hform, hstands⟩ := selection_certified deliveryLog_hashSound deliveryLog_accepts hx rfl
  exact ⟨d, hform, (hstands (deliveryLog_stands deliverySelection)).1⟩

end Bellbook
