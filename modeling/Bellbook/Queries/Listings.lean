import Bellbook.Queries.Decisions
import Bellbook.Queries.Descent

/-!
# Generations and the frontier

`siblings` and `frontier` compare Candidates by what they were caused by and by what became of them.

* A continuation goes on from a Candidate that its anchor chose (`Verified.continuation_form`), which is older
  than the anchor. So no two siblings lie on one line (`siblings_exact`).
* A Candidate is first considered, then chosen, then continued. `Stage` names where it stands, and the frontier
  shows those whose stage waits for a decision or for work (`frontier_exact`).
-/

namespace Bellbook

open Std Relation

/-- How far work on a Candidate has come. -/
inductive Stage
  | unconsidered
  | considered
  | chosen
  | continued
  deriving DecidableEq

def Stage.rank : Stage → Nat
  | .unconsidered => 0
  | .considered => 1
  | .chosen => 2
  | .continued => 3

/-- Why a Candidate at the stage is on the frontier. -/
def Stage.reason : Stage → Option String
  | .unconsidered => some "unconsidered"
  | .chosen => some "selected-no-continuation"
  | .considered | .continued => none

namespace Platform

variable (P : Platform)

/-- Some accepted Selection considered the Candidate. -/
def Considered (L : List Record) (id : RecordId) : Prop :=
  ∃ x ∈ P.accepted L, x.kind = .selection ∧ ∃ d, P.decode SelectionData x.data = some d ∧ id ∈ d.considered

/-- Some accepted Selection chose the Candidate. -/
def Chosen (L : List Record) (id : RecordId) : Prop :=
  ∃ x ∈ P.accepted L, x.kind = .selection ∧ ∃ d, P.decode SelectionData x.data = some d ∧
    id ∈ d.outcome.winners

/-- Some accepted continuation has the Candidate as its parent. -/
def Continued (L : List Record) (id : RecordId) : Prop :=
  ∃ c ∈ P.accepted L, c.kind = .candidate ∧ ∃ d, P.decode CandidateData c.data = some d ∧
    d.basis = .continuation ∧ d.parent = some id

inductive AtStage (L : List Record) (id : RecordId) : Stage → Prop
  | unconsidered (hno : ¬P.Considered L id) : AtStage L id .unconsidered
  | considered (h : P.Considered L id) (hno : ¬P.Chosen L id) : AtStage L id .considered
  | chosen (h : P.Chosen L id) (hno : ¬P.Continued L id) : AtStage L id .chosen
  | continued (h : P.Continued L id) : AtStage L id .continued

/-- What an accepted continuation goes on from: its anchor, and the Candidate that was chosen. -/
structure ContinuationForm (L : List Record) (c : Record) (d : CandidateData) (x : Record)
    (xd : SelectionData) (p : Record) : Prop where
  anchor : x ∈ P.accepted L
  kind : x.kind = .selection
  cause : refTargets .cause c.refs = [x.id]
  earlier : x.time.toNat < c.time.toNat
  decision : P.decode SelectionData x.data = some xd
  parent : d.parent = some p.id
  chosen : p.id ∈ xd.outcome.winners
  offered : P.Offered L x p.id p

/-- Two Candidates of one basis, not roots, with the same causes. -/
def SameGeneration (a b : Record) : Prop :=
  ∃ da db, P.decode CandidateData a.data = some da ∧ P.decode CandidateData b.data = some db ∧
    da.basis = db.basis ∧ da.basis ≠ .root ∧
    ∀ id, id ∈ refTargets .cause a.refs ↔ id ∈ refTargets .cause b.refs

/-- The test of `siblings`, on another accepted Candidate. -/
def inGeneration (c : Record) (d : CandidateData) (x : Record) : Bool :=
  x.id ≠ c.id && match Queries.candidateData P x with
    | .error _ => false
    | .ok od => Queries.sameGeneration c x d od

end Platform

variable {P : Platform} {rules : VerifierRules} {L : List Record} {s : State}

section Queries

variable (h : Verified P rules L s) (hs : P.HashSound L)
include h hs

theorem Verified.continuation_form {c : Record} (hc : c ∈ P.accepted L) (hk : c.kind = .candidate)
    {d : CandidateData} (hd : P.decode CandidateData c.data = some d) (hb : d.basis = .continuation) :
    ∃ x xd p, P.ContinuationForm L c d x xd p := by
  obtain ⟨d', hform⟩ := h.candidate_form hs hc hk
  obtain rfl : d' = d := Option.some.inj (hform.payload.symm.trans hd)
  obtain ⟨x, hx, hxk, hcause, p, hp, hpk, hparent, -⟩ := hform.continuation hb
  obtain ⟨xd, hdecision⟩ := h.decision_form hs hx hxk
  obtain ⟨i, hi, rfl⟩ := List.mem_iff_getElem.mp (mem_of_mem_accepted hc)
  obtain ⟨t, ht, hcheck⟩ := h.accepted_at hs hi hc
  have hkind := (checkSubject_passes hcheck).kind
  simp only [Platform.checkKindSpecific, hk, Platform.checkCandidate, hd, orReject_eq_none,
    orElse_none_iff, rejectIf_eq_none, hcause, Option.some.injEq, exists_eq_left'] at hkind
  obtain ⟨-, -, -, causes, hcauses, hbasis⟩ := hkind
  obtain ⟨x', hfind, rfl⟩ : ∃ x', (priorView (L.take i)).find x.id = some x' ∧ causes = [x'] := by
    have hall := forall₂_mapM hcauses
    cases hall with
    | cons hx hrest =>
      cases hrest
      exact ⟨_, hx, rfl⟩
  simp only [Platform.checkBasis, hb, orElse_none_iff, rejectIf_eq_none, not_or, not_not, orReject_eq_none,
    hparent, Option.some.injEq, exists_eq_left'] at hbasis
  obtain ⟨⟨-, hacc⟩, -, ad, had, houtcome⟩ := hbasis
  obtain ⟨hx', hid, hlt⟩ := h.found_before hs hi ht hfind hacc
  obtain rfl := h.run.eq_of_accepted_id hx' hx hid
  obtain rfl : ad = xd := Option.some.inj (had.symm.trans hdecision.payload)
  -- the parent is one of the winners, so the anchor considered it
  have hchosen : p.id ∈ ad.outcome.winners := by
    cases hout : ad.outcome with
    | none => simp [hout] at houtcome
    | selected candidates => simpa [hout, SelectionOutcome.winners] using houtcome
  obtain ⟨p', hoffered⟩ := hdecision.offered p.id (hdecision.winners.2 p.id hchosen)
  obtain rfl := h.run.eq_of_accepted_id hoffered.accepted hp hoffered.id
  exact ⟨x', ad, p', hx, hxk, hcause, hlt, had, hparent, hchosen, hoffered⟩

/-! ## Generations -/

omit hs in
/-- The accepted records of a kind, in log order. -/
theorem Verified.filter_isAccepted {kind : Kind} (hk : kind ≠ .verdict) :
    L.filter ((P.context rules L s).isAccepted kind) = (P.accepted L).filter fun r => r.kind = kind := by
  rw [← h.run.filter_accepted, List.filter_filter]
  apply List.filter_congr
  intro r _
  simp only [Queries.isAccepted, Platform.context]
  grind

omit h hs in
theorem sameGeneration_iff {a b : Record} {da db : CandidateData} :
    Queries.sameGeneration a b da db = true ↔ da.basis = db.basis ∧ da.basis ≠ .root ∧
      ∀ id, id ∈ refTargets .cause a.refs ↔ id ∈ refTargets .cause b.refs := by
  have hset : Queries.causeSet b = Queries.causeSet a ↔
      ∀ id, id ∈ refTargets .cause a.refs ↔ id ∈ refTargets .cause b.refs := by
    constructor
    · intro heq id
      rw [← mem_idSetOf, ← mem_idSetOf]
      exact iff_of_eq (congrArg (id ∈ ·) heq.symm)
    · intro hiff
      apply ExtTreeSet.ext_mem
      intro id
      rw [Queries.causeSet, Queries.causeSet, mem_idSetOf, mem_idSetOf]
      exact (hiff id).symm
  unfold Queries.sameGeneration
  cases hda : da.basis <;> cases hdb : db.basis <;> simp [hset]

omit h hs in
theorem Platform.SameGeneration.symm {a b : Record} (hgen : P.SameGeneration a b) : P.SameGeneration b a := by
  obtain ⟨da, db, hda, hdb, hbasis, hroot, hcauses⟩ := hgen
  exact ⟨db, da, hdb, hda, hbasis.symm, hbasis ▸ hroot, fun id => (hcauses id).symm⟩

/-- No member of a generation is an ancestor of another. -/
theorem Verified.not_ancestor {a b : Record} (ha : a ∈ P.accepted L) (hka : a.kind = .candidate)
    (hb : b ∈ P.accepted L) (hkb : b.kind = .candidate) (hgen : P.SameGeneration a b) :
    ¬TransGen (P.BackEdge L) a b := by
  intro hpath
  obtain ⟨da, db, hda, hdb, hbasis, hroot, hcauses⟩ := hgen
  obtain ⟨y, hay, hyb⟩ := TransGen.head'_iff.mp hpath
  have hedge := hay
  obtain ⟨-, hy, d, hd, hcases⟩ := hedge
  obtain rfl : d = da := Option.some.inj (hd.symm.trans hda)
  rcases hcases with ⟨hcont, hcases⟩ | ⟨hder, hyk, hcause⟩
  · obtain ⟨x, xd, p, hform⟩ := h.continuation_form hs ha hka hda hcont
    obtain ⟨x', xd', p', hform'⟩ := h.continuation_form hs hb hkb hdb (hbasis ▸ hcont)
    obtain rfl : x' = x := by
      have hmem := (hcauses x.id).mp (by rw [hform.cause]; exact List.mem_cons_self)
      rw [hform'.cause, List.mem_singleton] at hmem
      exact h.run.eq_of_accepted_id hform'.anchor hform.anchor hmem.symm
    rcases hcases with hcause | hparent
    · -- the anchor has no edges of its own
      rw [hform.cause, List.mem_singleton] at hcause
      obtain rfl := h.eq_of_id_eq hs hy (mem_of_mem_accepted hform.anchor) hcause
      rcases hyb.cases_head with heq | ⟨z, hyz, -⟩
      · rw [← heq, hform.kind] at hkb
        cases hkb
      · have hyk := hyz.1
        rw [hform.kind] at hyk
        cases hyk
    · -- the parent is older than the anchor, and that is older than the sibling
      have hyp : y.id = p.id := Option.some.inj (hparent.symm.trans hform.parent)
      obtain rfl := h.eq_of_id_eq hs hy (mem_of_mem_accepted hform.offered.accepted) hyp
      have hlt := hform.offered.earlier
      have hlt' := hform'.earlier
      rcases reflTransGen_iff_eq_or_transGen.mp hyb with heq | hyb
      · rw [heq] at hlt'
        omega
      · have := (h.backEdges_earlier hs hform.offered.accepted hyb).2 hkb
        omega
  · -- the first hop of a derivation is a hop from the other one as well
    have hby : P.BackEdge L b y := ⟨hkb, hy, db, hdb, .inr ⟨hbasis ▸ hder, hyk, (hcauses y.id).mp hcause⟩⟩
    exact h.not_backEdge_cycle hs hb hkb (TransGen.head' hby hyb)

omit h hs in
theorem inGeneration_iff {c x : Record} {d : CandidateData} (hd : P.decode CandidateData c.data = some d)
    (hk : x.kind = .candidate) :
    P.inGeneration c d x = true ↔ x.id ≠ c.id ∧ P.SameGeneration c x := by
  unfold Platform.inGeneration Platform.SameGeneration Queries.candidateData
  rw [if_neg (not_not.mpr hk)]
  cases hx : P.decode CandidateData x.data with
  | none => simp
  | some od => simp [hd, sameGeneration_iff]

/-- The loop of `siblings` keeps the other members of the generation. -/
theorem Verified.siblings_eq {c : Record} (hc : c ∈ P.accepted L) (hk : c.kind = .candidate)
    {d : CandidateData} (hd : P.decode CandidateData c.data = some d) :
    (P.context rules L s).siblings P c.id = .ok ⟨(P.context rules L s).node P c,
      (((P.accepted L).filter fun x => x.kind = .candidate).filter (P.inGeneration c d)).map
        ((P.context rules L s).node P)⟩ := by
  have hget : (P.context rules L s).getAccepted c.id = .ok c := (h.getAccepted_eq_ok hs).mpr ⟨hc, rfl⟩
  have hdata : Queries.candidateData P c = .ok d := by simp [Queries.candidateData, hk, hd]
  rw [← h.filter_isAccepted (by decide), List.filter_filter]
  unfold Queries.siblings
  simp only [hget, hdata, bind, Except.bind, pure, Except.pure]
  congr 3
  apply List.filter_congr
  intro x _
  exact Bool.and_right_comm _ _ _

end Queries

/-- Another candidate derived from the root candidate. -/
def secondDerivation : Record :=
  sampleSubject 0x436b6e645f1ed895c4c3c04e169ef50b4180875757159ea561d5ac58bbf56ff2
    5 byAgent .candidate schemaCandidate
    (payload (⟨⟨⟨.sha1, String.ofList (List.replicate 40 'c'), none⟩, none, .reported⟩, .derivation,
      none, none, none⟩ : CandidateData)) [⟨.cause, sampleCandidate.id⟩]

def generationLog : List Record :=
  lineLog ++
  [secondDerivation,
    acceptance 0xa7222d34b5fe067478898acf8e771242253fd77ec960484dc6ecc48367bde3b9 secondDerivation]

def generationHistory : reference.AcceptedLog sampleRules where
  val := generationLog
  property := Platform.Accepts.extend (m := 4) lineLog_accepts (by decide) (by decide +kernel)

theorem generationLog_accepts : reference.Accepts sampleRules generationLog := generationHistory.property

theorem accepted_generationLog :
    reference.accepted generationLog = [sampleCandidate, sampleDerivation, secondDerivation] := by
  decide +kernel

theorem generationLog_hashSound : reference.HashSound generationLog := by
  obtain ⟨s, hv⟩ := accepts_iff.mp generationLog_accepts
  refine hashSound_of_nodup hv.ids ?_ (by decide +kernel)
  rw [map_schemaId]
  decide +kernel

/-- The stage of a Candidate, as the sets of `frontier` tell it. -/
def Queries.stage (P : Platform) (Q : Queries) (id : RecordId) : Stage :=
  if id ∉ Q.considered P then .unconsidered
  else if id ∉ Q.chosen P then .considered
  else if id ∉ Q.continued P then .chosen
  else .continued

theorem frontierReason_eq (P : Platform) (Q : Queries) (r : Record) :
    Q.frontierReason P r = (Q.stage P r.id).reason := by
  unfold Queries.frontierReason Queries.stage
  by_cases hconsidered : r.id ∈ Q.considered P <;> by_cases hchosen : r.id ∈ Q.chosen P <;>
    by_cases hcontinued : r.id ∈ Q.continued P <;>
    simp [hconsidered, hchosen, hcontinued, Stage.reason]

section Frontier

variable (h : Verified P rules L s) {id : RecordId}
include h

theorem Verified.mem_decisions {d : SelectionData} : d ∈ (P.context rules L s).selections P ↔
    ∃ x ∈ P.accepted L, x.kind = .selection ∧ P.decode SelectionData x.data = some d := by
  unfold Queries.selections
  rw [List.mem_filterMap]
  show (∃ x ∈ L.filter ((P.context rules L s).isAccepted .selection), _) ↔ _
  rw [h.filter_isAccepted (by decide)]
  simp only [List.mem_filter, decide_eq_true_eq, and_assoc]

theorem Verified.mem_considered : id ∈ (P.context rules L s).considered P ↔ P.Considered L id := by
  rw [Queries.considered, mem_idSetOf, List.mem_flatMap]
  simp only [h.mem_decisions, Platform.Considered]
  grind

theorem Verified.mem_chosen : id ∈ (P.context rules L s).chosen P ↔ P.Chosen L id := by
  rw [Queries.chosen, mem_idSetOf, List.mem_flatMap]
  simp only [h.mem_decisions, Platform.Chosen]
  grind

theorem Verified.mem_continued : id ∈ (P.context rules L s).continued P ↔ P.Continued L id := by
  rw [Queries.continued, mem_idSetOf, List.mem_filterMap]
  show (∃ x ∈ L.filter ((P.context rules L s).isAccepted .candidate), _) ↔ _
  rw [h.filter_isAccepted (by decide)]
  simp only [List.mem_filter, decide_eq_true_eq, and_assoc, Platform.Continued]
  constructor
  · rintro ⟨c, hc, hk, hparent⟩
    split at hparent
    · next d hd =>
      rw [Option.ite_none_right_eq_some] at hparent
      exact ⟨c, hc, hk, d, hd, hparent⟩
    · cases hparent
  · rintro ⟨c, hc, hk, d, hd, hb, hparent⟩
    exact ⟨c, hc, hk, by simp only [hd, hb, if_true, hparent]⟩

variable (hs : P.HashSound L)
include hs

/-- What is continued was chosen, and what was chosen was considered. -/
theorem Verified.chosen_of_continued (hcont : P.Continued L id) : P.Chosen L id := by
  obtain ⟨c, hc, hk, d, hd, hb, hparent⟩ := hcont
  obtain ⟨x, xd, p, hform⟩ := h.continuation_form hs hc hk hd hb
  obtain rfl : p.id = id := Option.some.inj (hform.parent.symm.trans hparent)
  exact ⟨x, hform.anchor, hform.kind, xd, hform.decision, hform.chosen⟩

theorem Verified.considered_of_chosen (hchosen : P.Chosen L id) : P.Considered L id := by
  obtain ⟨x, hx, hk, d, hd, hmem⟩ := hchosen
  exact ⟨x, hx, hk, d, hd, (h.considered_accepted hs hx hk hd).2 id hmem⟩

/-- The sets of `frontier` tell the stage. -/
theorem Verified.atStage_iff {stage : Stage} :
    P.AtStage L id stage ↔ (P.context rules L s).stage P id = stage := by
  have hconsidered : P.Chosen L id → P.Considered L id := h.considered_of_chosen hs
  have hchosen : P.Continued L id → P.Chosen L id := h.chosen_of_continued hs
  unfold Queries.stage
  constructor
  · intro hat
    cases hat with
    | unconsidered hno => rw [if_pos (mt h.mem_considered.mp hno)]
    | considered hin hno =>
      rw [if_neg (not_not.mpr (h.mem_considered.mpr hin)), if_pos (mt h.mem_chosen.mp hno)]
    | chosen hin hno =>
      rw [if_neg (not_not.mpr (h.mem_considered.mpr (hconsidered hin))),
        if_neg (not_not.mpr (h.mem_chosen.mpr hin)), if_pos (mt h.mem_continued.mp hno)]
    | continued hin =>
      rw [if_neg (not_not.mpr (h.mem_considered.mpr (hconsidered (hchosen hin)))),
        if_neg (not_not.mpr (h.mem_chosen.mpr (hchosen hin))),
        if_neg (not_not.mpr (h.mem_continued.mpr hin))]
  · rintro rfl
    split_ifs with hin hwin hcont
    · exact .continued (h.mem_continued.mp hcont)
    · exact .chosen (h.mem_chosen.mp hwin) (mt h.mem_continued.mpr hcont)
    · exact .considered (h.mem_considered.mp hin) (mt h.mem_chosen.mpr hwin)
    · exact .unconsidered (mt h.mem_considered.mpr hin)

omit hs in
theorem Verified.frontier_eq : (P.context rules L s).frontier P =
    ((P.accepted L).filter fun r => r.kind = .candidate).filterMap fun r =>
      ((P.context rules L s).stage P r.id).reason.map fun reason => ⟨(P.context rules L s).node P r, reason⟩ := by
  unfold Queries.frontier
  show (L.filter ((P.context rules L s).isAccepted .candidate)).filterMap _ = _
  rw [h.filter_isAccepted (by decide)]
  simp only [frontierReason_eq]

end Frontier

theorem Platform.AtStage.rank_le {T : List Record} (hsub : P.accepted T ⊆ P.accepted L)
    (h : Verified P rules L s) (hs : P.HashSound L) {id : RecordId} {a b : Stage} (ha : P.AtStage T id a)
    (hb : P.AtStage L id b) : a.rank ≤ b.rank := by
  have hconsidered : P.Considered T id → P.Considered L id := fun ⟨x, hx, hrest⟩ => ⟨x, hsub hx, hrest⟩
  have hchosen : P.Chosen T id → P.Chosen L id := fun ⟨x, hx, hrest⟩ => ⟨x, hsub hx, hrest⟩
  have hcontinued : P.Continued T id → P.Continued L id := fun ⟨x, hx, hrest⟩ => ⟨x, hsub hx, hrest⟩
  have hcc : P.Chosen L id → P.Considered L id := h.considered_of_chosen hs
  have hcn : P.Continued L id → P.Chosen L id := h.chosen_of_continued hs
  cases ha <;> cases hb <;> simp only [Stage.rank] <;> grind

/-- **Candidates move forward.** At every point of an accepted log a Candidate is at exactly one stage, what is
continued was chosen and what was chosen was considered, and over the log the stage never falls back. `frontier`
lists, in log order, exactly the accepted Candidates that wait for a decision or for a continuation. -/
theorem frontier_exact (hs : P.HashSound L) (h : P.Accepts rules L) :
    (∀ id, (∃! stage, P.AtStage L id stage) ∧ (P.Continued L id → P.Chosen L id) ∧
      (P.Chosen L id → P.Considered L id)) ∧
    (∀ k, 2 * k ≤ L.length → ∀ id a b, P.AtStage (L.take (2 * k)) id a → P.AtStage L id b →
      a.rank ≤ b.rank) ∧
    ∃ Q, P.queries rules L = .ok Q ∧ ∃ stage : RecordId → Stage, (∀ id, P.AtStage L id (stage id)) ∧
      Q.frontier P = ((P.accepted L).filter fun r => r.kind = .candidate).filterMap fun r =>
        (stage r.id).reason.map fun reason => ⟨Q.node P r, reason⟩ := by
  obtain ⟨s, hv⟩ := accepts_iff.mp h
  refine ⟨fun id => ⟨?_, hv.chosen_of_continued hs, hv.considered_of_chosen hs⟩, ?_, ?_⟩
  · refine ⟨_, (hv.atStage_iff hs).mpr rfl, ?_⟩
    intro stage hstage
    exact ((hv.atStage_iff hs).mp hstage).symm
  · intro k hk id a b ha hb
    obtain ⟨t, ht⟩ := hv.take hk
    exact ha.rank_le (accepted_mono ht.run (List.take_prefix _ _)) hv hs hb
  · exact ⟨_, hv.queries_eq, _, fun id => (hv.atStage_iff hs).mpr rfl, hv.frontier_eq⟩

theorem deliveryCandidate_stage : (∃! stage, reference.AtStage deliveryLog deliveryCandidate.id stage) ∧
    ∀ a b, reference.AtStage (deliveryLog.take 6) deliveryCandidate.id a →
      reference.AtStage deliveryLog deliveryCandidate.id b → a.rank ≤ b.rank := by
  obtain ⟨hstages, hforward, -⟩ := frontier_exact deliveryLog_hashSound deliveryLog_accepts
  exact ⟨(hstages deliveryCandidate.id).1, hforward 3 (by decide) deliveryCandidate.id⟩

end Bellbook
