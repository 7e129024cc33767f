import Bellbook.Receipt.Declarations
import Bellbook.Queries.Descent
import Bellbook.Verify.Authentication

/-!
# What the tiers guarantee

The clauses of `bellbook-core-v1` and `bellbook-core-signed-v1` read the embedded rules and the accepted records. Over
a log that replays they say more: under the baseline every accepted record is by a registered author in its
role, and what rests on weaker evidence than the base classes was rejected; under the signed tier every accepted
record of the evolution kinds carries a signature with a key pinned to its author, and so does every step of a
line of descent (`tiers_exact`).
-/

namespace Bellbook

open Std Relation

/-- The kinds the baseline sets thresholds on, with their base classes. -/
def baselineThresholds : List (Kind × Evidence) :=
  [(.candidate, .reported), (.evaluation, .reported), (.selection, .inferred)]

namespace Platform

variable (P : Platform)

/-- The rule shape of the baseline, and what the replay makes of it. -/
structure BaselineTier (r : Receipt) : Prop where
  roles : r.rules.authorRoles.isEmpty = false
  registered : ∀ x ∈ P.accepted r.records, r.rules.authorRoles[x.author.id]? = some x.author.type
  thresholds : ∀ p ∈ baselineThresholds, ∃ t, r.rules.evidenceThresholds[p.1]? = some t ∧ t ≤ p.2
  evidence : ∀ p ∈ baselineThresholds, ∀ x ∈ P.accepted r.records, x.kind = p.1 → x.evidence ≤ p.2
  context : 1 ≤ r.rules.maxContextRecords ∧ r.rules.maxContextRecords ≤ 100000

/-- The Selection chose something. -/
def Claimed (x : Record) : Prop :=
  x.kind = .selection ∧ ∃ d chosen, P.decode SelectionData x.data = some d ∧ d.outcome = .selected chosen

/-- The evolution record is signed by pinned authors, and claims rest on attested Evaluations. -/
structure SignedTier (r : Receipt) : Prop where
  baseline : P.BaselineTier r
  declared : ∀ decl ∈ r.profiles, decl.id = bellbookCoreV1 → P.profileRef decl.id = some decl
  required : ∀ k ∈ signedKinds, k ∈ r.rules.signatureRequiredKinds
  signed : ∀ x ∈ P.accepted r.records, x.kind ∈ signedKinds → P.PinnedSignature r.rules x
  attested : ∀ x ∈ P.accepted r.records, P.Claimed x → ∀ e ∈ P.accepted r.records, e.kind = .evaluation →
    e.id ∈ refTargets .use x.refs → e.schema = P.schemaId schemaEvaluationAttested

end Platform

variable {P : Platform} {rules : VerifierRules} {r : Receipt} {report : Report} {s : State} {schemas : List String}

/-! ## The clauses -/

/-- Over a log that replays, a profile conforms exactly when its clauses hold there. -/
theorem status_evaluateOver {t : ProfileTable} {clauses : State → List ClauseResult}
    (hvalid : report.status ≠ .invalid) (hbuild : P.buildStateUnchecked r.records = some s) :
    (P.evaluateOver t r report clauses).status = .conformant ↔
      (clauses s).all ClauseResult.passed = true := by
  unfold Platform.evaluateOver
  rw [if_neg hvalid, hbuild]
  exact status_finishProfile t (clauses s)

theorem thresholdSet_iff {kind : Kind} {base : Evidence} : Platform.thresholdSet rules kind base = true ↔
    ∃ t, rules.evidenceThresholds[kind]? = some t ∧ t ≤ base := by
  simp [Platform.thresholdSet, Option.any_eq_true]

/-- The clauses B1 to B6. -/
theorem evaluateCoreV1_iff (hvalid : report.status ≠ .invalid) :
    (P.evaluateCoreV1 r report).status = .conformant ↔ r.rules.authorRoles.isEmpty = false ∧
      (∀ p ∈ baselineThresholds, ∃ t, r.rules.evidenceThresholds[p.1]? = some t ∧ t ≤ p.2) ∧
      1 ≤ r.rules.maxContextRecords ∧ r.rules.maxContextRecords ≤ 100000 := by
  rw [Platform.evaluateCoreV1, status_finishProfile]
  simp only [List.all_cons, List.all_nil, Bool.and_true, Bool.and_eq_true, decide_eq_true_eq,
    hvalid, ne_eq, not_false_eq_true, true_and, Bool.not_eq_true', thresholdSet_iff, baselineThresholds,
    List.forall_mem_cons, List.not_mem_nil, false_imp_iff, implies_true, and_true, and_assoc]

/-! ## Over a log that replays -/

theorem Platform.PinnedSignature.mem_authorKeys {x : Record} (h : P.PinnedSignature rules x) :
    x.author.id ∈ rules.authorKeys := by
  obtain ⟨keys, -, -, -, hkeys, -⟩ := h
  rw [ExtTreeMap.mem_iff_isSome_getElem?, hkeys]
  rfl

section Replayed

variable (h : Verified P (P.rulesForEpoch r.rules schemas) r.records s) (hs : P.HashSound r.records)
include h hs

/-- An accepted record is by a registered author, in its role. -/
theorem Verified.registered_author {x : Record} (hx : x ∈ P.accepted r.records) :
    r.rules.authorRoles[x.author.id]? = some x.author.type := by
  obtain ⟨i, hi, t, -, -, hpass⟩ := h.passes hs hx
  exact (hpass.registered (h.run.mem_of_mem_accepted hx).2).1

theorem Verified.evidence_le_threshold {x : Record} (hx : x ∈ P.accepted r.records) {t : Evidence}
    (ht : r.rules.evidenceThresholds[x.kind]? = some t) : x.evidence ≤ t := by
  obtain ⟨i, hi, rfl⟩ := List.mem_iff_getElem.mp (mem_of_mem_accepted hx)
  obtain ⟨u, -, hcheck⟩ := h.accepted_at hs hi hx
  exact checkSubject_threshold hcheck ht

/-- The clauses B1 to B6, with what the replay makes of them. -/
theorem Verified.baselineTier_iff (hvalid : report.status ≠ .invalid) :
    (P.evaluateCoreV1 r report).status = .conformant ↔ P.BaselineTier r := by
  rw [evaluateCoreV1_iff hvalid]
  constructor
  · intro ⟨hroles, hthresholds, hcontext⟩
    refine ⟨hroles, fun x hx => h.registered_author hs hx, hthresholds, fun p hp x hx hk => ?_, hcontext⟩
    obtain ⟨t, ht, hle⟩ := hthresholds p hp
    exact (h.evidence_le_threshold hs hx (hk ▸ ht)).trans hle
  · intro htier
    exact ⟨htier.roles, htier.thresholds, htier.context⟩

/-- Clause S2: the authors that are pinned have signed. -/
theorem Verified.pinned_iff :
    ((r.records.filter fun x => x.kind ∈ signedKinds && r.isAccepted s x.id).all fun x =>
        x.author.id ∈ r.rules.authorKeys) = true ↔
      ∀ x ∈ P.accepted r.records, x.kind ∈ signedKinds → P.PinnedSignature r.rules x := by
  simp only [List.all_eq_true, List.mem_filter, Bool.and_eq_true, decide_eq_true_eq]
  constructor
  · intro hpinned x hx hk
    have hin := mem_of_mem_accepted hx
    obtain ⟨i, hi, t, -, -, hpass⟩ := h.passes hs hx
    exact hpass.pinned (hpinned x ⟨hin, hk, (h.receipt_isAccepted hs hin).mpr hx⟩)
  · intro hsigned x ⟨hin, hk, hacc⟩
    exact (hsigned x ((h.receipt_isAccepted hs hin).mp hacc) hk).mem_authorKeys

/-- Clause S3, over the accepted records. -/
theorem Verified.attested_iff :
    ((P.selectedSelections r s).all fun x => (r.usedEvaluations s x.1).all fun e =>
        e.schema = P.schemaId schemaEvaluationAttested) = true ↔
      ∀ x ∈ P.accepted r.records, P.Claimed x → ∀ e ∈ P.accepted r.records, e.kind = .evaluation →
        e.id ∈ refTargets .use x.refs → e.schema = P.schemaId schemaEvaluationAttested := by
  simp only [List.all_eq_true, decide_eq_true_eq]
  constructor
  · intro hall x hx ⟨hk, d, chosen, hd, hsel⟩ e he hek huse
    exact hall (x, chosen) ((h.mem_selectedSelections hs).mpr ⟨hx, hk, d, hd, hsel⟩) e
      ((h.mem_usedEvaluations hs).mpr ⟨he, hek, huse⟩)
  · intro hall ⟨x, chosen⟩ hx e he
    obtain ⟨hacc, hk, d, hd, hsel⟩ := (h.mem_selectedSelections hs).mp hx
    obtain ⟨hacc', hek, huse⟩ := (h.mem_usedEvaluations hs).mp he
    exact hall x hacc ⟨hk, d, chosen, hd, hsel⟩ e hacc' hek huse

theorem Verified.signedTier_iff (hvalid : report.status ≠ .invalid)
    (hdistinct : (r.profiles.map ProfileRef.id).Nodup) :
    (P.evaluateSigned r report).status = .conformant ↔ P.SignedTier r := by
  have hcore : P.evaluateProfile bellbookCoreV1 r report = P.evaluateCoreV1 r report := if_pos rfl
  rw [Platform.evaluateSigned, status_evaluateOver hvalid h.run.build]
  simp only [Platform.signedClauses, List.all_cons, List.all_nil, Bool.and_true, Bool.and_eq_true,
    evaluateBaseline_met_iff hdistinct, hcore, h.baselineTier_iff hs hvalid, h.pinned_iff hs, h.attested_iff hs]
  constructor
  · intro ⟨⟨hbaseline, hdeclared⟩, hrequired, hsigned, hattested⟩
    exact ⟨hbaseline, hdeclared, by simpa using hrequired, hsigned, hattested⟩
  · intro htier
    exact ⟨⟨htier.baseline, htier.declared⟩, by simpa using htier.required, htier.signed, htier.attested⟩

/-- What a line of descent goes through: Candidates, and the Selections that anchor them. -/
theorem Verified.kind_of_backEdge {c x : Record} (hc : c ∈ P.accepted r.records)
    (hedge : P.BackEdge r.records c x) : x.kind = .candidate ∨ x.kind = .selection := by
  obtain ⟨hk, hx, d, hd, hcases⟩ := hedge
  obtain ⟨d', hform⟩ := h.candidate_form hs hc hk
  obtain rfl : d' = d := Option.some.inj (hform.payload.symm.trans hd)
  have hsame {y : Record} (hy : y ∈ P.accepted r.records) (hid : y.id = x.id) : y = x :=
    h.eq_of_id_eq hs (mem_of_mem_accepted hy) hx hid
  rcases hcases with ⟨hb, hcases⟩ | ⟨-, hcandidate, -⟩
  · obtain ⟨anchor, hanchor, hkind, hcauses, parent, hparent, hpk, hp, -⟩ := hform.continuation hb
    rcases hcases with hcause | hpx
    · rw [hcauses, List.mem_singleton] at hcause
      exact .inr (hsame hanchor hcause.symm ▸ hkind)
    · rw [hp] at hpx
      exact .inl (hsame hparent (Option.some.inj hpx) ▸ hpk)
  · exact .inl hcandidate

theorem Verified.kind_of_line {c x : Record} (hc : c ∈ P.accepted r.records)
    (hpath : TransGen (P.BackEdge r.records) c x) : x.kind ∈ signedKinds := by
  have hkind : x.kind = .candidate ∨ x.kind = .selection := by
    cases hpath with
    | single hedge => exact h.kind_of_backEdge hs hc hedge
    | tail hpath hedge => exact h.kind_of_backEdge hs (h.backEdges_earlier hs hc hpath).1 hedge
  rcases hkind with hk | hk <;> rw [hk] <;> decide

end Replayed

end Bellbook
