import Bellbook.Queries.Queries
import Bellbook.Verify.Soundness

/-!
# What the queries report

`ReportsAccepted` says of a node that it is an accepted record of the log, annotated as `verify_log`
annotates it. Targets, lines, generations, the frontier and what a Selection chose are all of this
form: each query starts from an accepted record, and the verifier gave every lineage edge an accepted
target. The evidence of a Selection is not: the verifier lets a Selection Use a rejected Evaluation,
and `selection_evidence` looks Used records up without asking whether they were accepted
(`queries_accepted_iff`).
-/

namespace Bellbook

open Std

/-! ## Ids in hex -/

theorem hexByte_hexChar {n : Nat} (h : n < 256) :
    hexByte (hexChar (n / 16)) (hexChar (n % 16)) = UInt8.ofNat n := by
  have hplus : ∀ d < 16, Nat.digitChar d ≠ '+' := by decide
  unfold hexByte hexChar
  rw [if_neg (hplus _ (by omega)), hexDigit_digitChar _ (by omega), hexDigit_digitChar _ (by omega)]
  show UInt8.ofNat (n / 16 * 16 + n % 16) = UInt8.ofNat n
  congr 1
  omega

theorem hexBytes_hexPairs (bytes : Bytes) :
    hexBytes (bytes.flatMap fun b => [hexChar (b.toNat / 16), hexChar (b.toNat % 16)]) = bytes := by
  induction bytes with
  | nil => rfl
  | cons b bytes ih =>
    simp only [List.flatMap_cons, List.cons_append, List.nil_append, hexBytes]
    rw [ih, hexByte_hexChar b.toNat_lt, UInt8.ofNat_toNat]

theorem parseHex_hexEncode (h : Hash256) : parseHex (hexEncode h) = h := by
  have hbytes : hexBytes (hexEncode h).toList = hashBytes h := by
    rw [hexEncode, String.toList_ofList, hexBytes_hexPairs]
  have hval := hashOfBytes_hashBytes h
  rw [hashOfBytes, if_pos (length_hashBytes h)] at hval
  rw [parseHex, hbytes]
  exact Option.some.inj hval

/-! ## The seven queries as one family -/

/-- A query with its argument. -/
inductive Query where
  | descent (candidate : RecordId)
  | descendants (id : RecordId)
  | siblings (candidate : RecordId)
  | frontier
  | standing (id : RecordId)
  | evidence (id : RecordId)
  | selected (objective : String)

def SelectionEvidence.nodes (e : SelectionEvidence) : List Node :=
  e.selection :: e.evidence.map EvidenceEntry.node

def SelectedEntry.nodes (e : SelectedEntry) : List Node :=
  e.selection :: (e.chosen ++ e.evidence.map EvidenceEntry.node)

/-- Every record that appears in the answer. -/
def Queries.answer (P : Platform) (Q : Queries) : Query → Except QueryError (List Node)
  | .descent candidate =>
    (Q.descent P candidate).map fun a => a.target :: a.line.map DescentStep.node
  | .descendants id => (Q.descendants P id).map fun a => a.target :: a.descendants
  | .siblings candidate => (Q.siblings P candidate).map fun a => a.target :: a.siblings
  | .frontier => .ok ((Q.frontier P).map FrontierEntry.node)
  | .standing id => (Q.standing P id).map fun a => [a.node]
  | .evidence id =>
    (Q.evidence P id).map fun a => a.target :: a.restsOn.flatMap SelectionEvidence.nodes
  | .selected objective => .ok ((Q.selected P objective).selections.flatMap SelectedEntry.nodes)

namespace Platform

variable (P : Platform)

/-- The node is an accepted record of the log, annotated as `verify_log` annotates it. -/
def ReportsAccepted (rules : VerifierRules) (L : List Record) (n : Node) : Prop :=
  let verdict := P.verifyLog rules L none
  ∃ r ∈ P.accepted L, n.id = hexEncode r.id ∧ n.kind = UnitEnum.name r.kind ∧
    (r.kind = .candidate →
      n.standing = if r.id ∈ verdict.standing.compromised then "compromised" else "sound") ∧
    (r.kind = .selection →
      n.standing = if r.id ∈ verdict.standing.unsound then "unsound" else "sound") ∧
    (r.kind ≠ .candidate → r.kind ≠ .selection → n.standing = "n/a") ∧
    (n.tainted = true ↔ r.id ∈ verdict.taintedRecords) ∧
    (n.retracted = true ↔ r.id ∈ verdict.retractedRecords)

/-- Every record in every successful answer is an accepted one with its annotations. -/
def QueriesAccepted (rules : VerifierRules) (L : List Record) : Prop :=
  ∀ Q, P.queries rules L = .ok Q → ∀ q nodes, Q.answer P q = .ok nodes →
    ∀ n ∈ nodes, P.ReportsAccepted rules L n

/-- An accepted Selection Uses a rejected Evaluation whose bytes still decode by its schema. -/
def UsesRejectedEvaluation (L : List Record) : Prop :=
  ∃ sel ∈ P.accepted L, sel.kind = .selection ∧ ∃ e ∈ L, e ∉ P.accepted L ∧ e.kind = .evaluation ∧
    e.id ∈ refTargets .use sel.refs ∧ (P.evaluationSummary e.schema e.data).isSome = true

end Platform

/-! ## The context of an accepted log -/

variable {P : Platform} {rules : VerifierRules} {L : List Record} {s : State}

/-- The context that `Queries::new` makes of an accepted log. -/
def Platform.context (P : Platform) (rules : VerifierRules) (L : List Record) (s : State) : Queries :=
  ⟨L, P.verifyLog rules L none, s, indexById L⟩

/-- On an accepted log the unchecked build cannot fail. -/
theorem Verified.queries_eq (h : Verified P rules L s) :
    P.queries rules L = .ok (P.context rules L s) := by
  have haccept : (P.verifyLog rules L none).result = .accept := accepts_iff.mpr ⟨s, h⟩
  unfold Platform.queries
  simp only [haccept, h.run.build, ne_eq, not_true, if_false]
  rfl

section Context

variable (h : Verified P rules L s) (hs : P.HashSound L)
include h hs

theorem Verified.byId_eq_some {id : RecordId} {r : Record} :
    (P.context rules L s).byId[id]? = some r ↔ r ∈ L ∧ r.id = id := by
  have htable : (indexById L)[id]? = some r ↔ ∃ x ∈ L, x.id = id ∧ some x = some r :=
    getElem?_foldl_insertVal (f := some) fun a ha b hb => h.eq_of_id_eq hs ha hb
  refine htable.trans ⟨?_, ?_⟩
  · rintro ⟨x, hx, hid, hxr⟩
    cases hxr
    exact ⟨hx, hid⟩
  · rintro ⟨hr, hid⟩
    exact ⟨r, hr, hid, rfl⟩

theorem Verified.get_eq_ok {id : RecordId} {r : Record} :
    (P.context rules L s).get id = .ok r ↔ r ∈ L ∧ r.id = id := by
  rw [← h.byId_eq_some hs]
  unfold Queries.get
  cases (P.context rules L s).byId[id]? <;> simp

theorem Verified.getAccepted_eq_ok {id : RecordId} {r : Record} :
    (P.context rules L s).getAccepted id = .ok r ↔ r ∈ P.accepted L ∧ r.id = id := by
  unfold Queries.getAccepted
  simp only [bind_eq_ok, h.get_eq_ok hs]
  constructor
  · rintro ⟨x, ⟨hx, rfl⟩, hrest⟩
    split at hrest
    · cases hrest
    · next hacc =>
      cases hrest
      exact ⟨h.accepted_of_mem hs hx (not_not.mp hacc), rfl⟩
  · rintro ⟨hr, rfl⟩
    have hacc : r.id ∈ (P.context rules L s).state.acceptedRecords :=
      h.run.mem_acceptedRecords.mpr ⟨r, hr, rfl⟩
    refine ⟨r, ⟨mem_of_mem_accepted hr, rfl⟩, ?_⟩
    rw [if_neg (not_not.mpr hacc)]
    rfl

theorem Verified.isAccepted_iff {kind : Kind} {r : Record} (hr : r ∈ L) :
    (P.context rules L s).isAccepted kind r = true ↔ r ∈ P.accepted L ∧ r.kind = kind := by
  simp only [Queries.isAccepted, Bool.and_eq_true, decide_eq_true_eq]
  constructor
  · rintro ⟨hk, hacc⟩
    exact ⟨h.accepted_of_mem hs hr hacc, hk⟩
  · rintro ⟨hacc, hk⟩
    exact ⟨hk, h.run.mem_acceptedRecords.mpr ⟨r, hacc, rfl⟩⟩

omit h hs in
/-- A node made from an accepted record. -/
theorem reports_node {r : Record} (hr : r ∈ P.accepted L) :
    P.ReportsAccepted rules L ((P.context rules L s).node P r) := by
  refine ⟨r, hr, rfl, rfl, ?_, ?_, ?_, decide_eq_true_iff, decide_eq_true_iff⟩
  · intro hk
    show Queries.standingLabel (P.verifyLog rules L none) r = _
    simp only [Queries.standingLabel, hk]
  · intro hk
    show Queries.standingLabel (P.verifyLog rules L none) r = _
    simp only [Queries.standingLabel, hk]
  · intro hc hsel
    show Queries.standingLabel (P.verifyLog rules L none) r = _
    unfold Queries.standingLabel
    split
    · next hk => exact absurd hk hc
    · next hk => exact absurd hk hsel
    · rfl

/-! ## Lines -/

/-- The id of an accepted record of the log. -/
def Platform.AcceptedId (P : Platform) (L : List Record) (id : RecordId) : Prop :=
  ∃ x ∈ P.accepted L, x.id = id

omit h hs in
theorem mem_sortedCauses {r : Record} {id : RecordId} :
    id ∈ Queries.sortedCauses r ↔ id ∈ refTargets .cause r.refs :=
  (List.mergeSort_perm _ _).mem_iff

/-- The verifier gave every backward edge an accepted target. -/
theorem Verified.backEdges_accepted {c : Record} {d : CandidateData} (hc : c ∈ P.accepted L)
    (hd : Queries.candidateData P c = .ok d) :
    ∀ e ∈ (P.context rules L s).backEdges c d, P.AcceptedId L e.1 := by
  obtain ⟨hk, hdec⟩ : c.kind = .candidate ∧ P.decode CandidateData c.data = some d := by
    unfold Queries.candidateData at hd
    split at hd
    · cases hd
    · next hk =>
      split at hd
      · cases hd
      · next hdec => cases hd; exact ⟨not_not.mp hk, hdec⟩
  obtain ⟨d', hform⟩ := h.candidate_form hs hc hk
  obtain rfl : d' = d := Option.some.inj (hform.payload.symm.trans hdec)
  intro e he
  unfold Queries.backEdges at he
  split at he
  · cases he
  · next hb =>
    obtain ⟨anchor, hanchor, -, hcauses, parent, hparent, -, hp, -⟩ := hform.continuation hb
    rcases List.mem_append.mp he with he | he
    · obtain ⟨a, ha, rfl⟩ := List.mem_map.mp he
      rw [mem_sortedCauses, hcauses, List.mem_singleton] at ha
      exact ⟨anchor, hanchor, ha.symm⟩
    · obtain ⟨p, hp', rfl⟩ := List.mem_map.mp he
      rw [hp, Option.toList_some, List.mem_singleton] at hp'
      exact ⟨parent, hparent, hp'.symm⟩
  · next hb =>
    obtain ⟨a, ha, rfl⟩ := List.mem_map.mp he
    have hcause := mem_sortedCauses.mp (List.mem_filter.mp ha).1
    obtain ⟨x, hx, hid, -⟩ := hform.derivation hb a hcause
    exact ⟨x, hx, hid⟩

/-- A step of a line: the node of an accepted record. -/
def Platform.AcceptedNode (P : Platform) (rules : VerifierRules) (L : List Record) (s : State)
    (n : Node) : Prop :=
  ∃ r ∈ P.accepted L, n = (P.context rules L s).node P r

theorem Verified.eq_of_acceptedId {id : RecordId} {r : Record} (hid : P.AcceptedId L id)
    (hget : (P.context rules L s).get id = .ok r) : r ∈ P.accepted L := by
  obtain ⟨hr, rfl⟩ := (h.get_eq_ok hs).mp hget
  obtain ⟨x, hx, hxr⟩ := hid
  rwa [← h.eq_of_id_eq hs (mem_of_mem_accepted hx) hr hxr]

/-- The queue only ever holds accepted ids, so the line only ever gets accepted records. -/
theorem Verified.descentLoop_accepted (seen : IdSet) (queue : List (RecordId × String))
    (line : List DescentStep) (hqueue : ∀ e ∈ queue, P.AcceptedId L e.1)
    (hline : ∀ step ∈ line, P.AcceptedNode rules L s step.node) {result : List DescentStep}
    (hloop : (P.context rules L s).descentLoop P seen queue line = .ok result) :
    ∀ step ∈ result, P.AcceptedNode rules L s step.node := by
  have hpush : ∀ {line : List DescentStep} {anc : Record} (via : String), anc ∈ P.accepted L →
      (∀ step ∈ line, P.AcceptedNode rules L s step.node) →
      ∀ step ∈ line ++ [⟨(P.context rules L s).node P anc, via⟩],
        P.AcceptedNode rules L s step.node := by
    intro line anc via hanc hline step hstep
    rcases List.mem_append.mp hstep with hstep | hstep
    · exact hline step hstep
    · rw [List.mem_singleton.mp hstep]
      exact ⟨anc, hanc, rfl⟩
  fun_induction Queries.descentLoop P (P.context rules L s) seen queue line with
  | case1 seen line =>
    cases hloop
    exact hline
  | case2 seen line id via queue _ ih =>
    exact ih (fun e he => hqueue e (List.mem_cons_of_mem _ he)) hline hloop
  | case3 => cases hloop
  | case4 => cases hloop
  | case5 seen line id via queue _ anc hget _ ad had ih =>
    have hanc := h.eq_of_acceptedId hs (hqueue _ List.mem_cons_self) hget
    refine ih (fun e he => ?_) (hpush via hanc hline) hloop
    rcases List.mem_append.mp he with he | he
    · exact hqueue e (List.mem_cons_of_mem _ he)
    · exact h.backEdges_accepted hs hanc had e he
  | case6 seen line id via queue _ anc hget _ ih =>
    have hanc := h.eq_of_acceptedId hs (hqueue _ List.mem_cons_self) hget
    exact ih (fun e he => hqueue e (List.mem_cons_of_mem _ he)) (hpush via hanc hline) hloop

theorem Verified.descent_accepted {id : RecordId} {report : DescentReport}
    (hq : (P.context rules L s).descent P id = .ok report) :
    P.AcceptedNode rules L s report.target ∧
      ∀ step ∈ report.line, P.AcceptedNode rules L s step.node := by
  simp only [Queries.descent, bind_eq_ok, h.getAccepted_eq_ok hs] at hq
  obtain ⟨r, ⟨hr, rfl⟩, data, hdata, line, hline, hreport⟩ := hq
  cases hreport
  exact ⟨⟨r, hr, rfl⟩, h.descentLoop_accepted hs _ _ _ (h.backEdges_accepted hs hr hdata)
    (fun step hstep => absurd hstep List.not_mem_nil) hline⟩

omit h hs in
/-- A loop over the log that pushes nodes of accepted records. -/
theorem foldlM_accepted {ε : Type} {f : List Node → Record → Except ε (List Node)}
    (hf : ∀ acc r acc', r ∈ L → f acc r = .ok acc' →
      acc' = acc ∨ (r ∈ P.accepted L ∧ acc' = acc ++ [(P.context rules L s).node P r]))
    {M : List Record} (hM : M ⊆ L) {acc found : List Node}
    (hacc : ∀ n ∈ acc, P.AcceptedNode rules L s n) (hfold : M.foldlM f acc = .ok found) :
    ∀ n ∈ found, P.AcceptedNode rules L s n := by
  induction M generalizing acc with
  | nil =>
    cases hfold
    exact hacc
  | cons r M ih =>
    rw [List.foldlM_cons, bind_eq_ok] at hfold
    obtain ⟨acc', hstep, hrest⟩ := hfold
    refine ih (fun x hx => hM (List.mem_cons_of_mem _ hx)) ?_ hrest
    rcases hf acc r acc' (hM List.mem_cons_self) hstep with rfl | ⟨hr, rfl⟩
    · exact hacc
    · intro n hn
      rcases List.mem_append.mp hn with hn | hn
      · exact hacc n hn
      · rw [List.mem_singleton.mp hn]
        exact ⟨r, hr, rfl⟩

theorem Verified.descendants_accepted {id : RecordId} {report : DescendantsReport}
    (hq : (P.context rules L s).descendants P id = .ok report) :
    P.AcceptedNode rules L s report.target ∧
      ∀ n ∈ report.descendants, P.AcceptedNode rules L s n := by
  simp only [Queries.descendants, bind_eq_ok, h.getAccepted_eq_ok hs] at hq
  obtain ⟨r, ⟨hr, rfl⟩, found, hfound, hreport⟩ := hq
  cases hreport
  refine ⟨⟨r, hr, rfl⟩, foldlM_accepted ?_ (List.Subset.refl _)
    (fun n hn => absurd hn List.not_mem_nil) hfound⟩
  intro acc x acc' hx hstep
  split at hstep
  · cases hstep
    exact .inl rfl
  · next hskip =>
    obtain ⟨-, hacc⟩ := not_or.mp hskip
    rw [Bool.not_eq_false, h.isAccepted_iff hs hx] at hacc
    obtain ⟨report, -, hfound⟩ := bind_eq_ok.mp hstep
    split at hfound
    · cases hfound
      exact .inr ⟨hacc.1, rfl⟩
    · cases hfound
      exact .inl rfl

theorem Verified.siblings_accepted {id : RecordId} {report : SiblingsReport}
    (hq : (P.context rules L s).siblings P id = .ok report) :
    P.AcceptedNode rules L s report.target ∧ ∀ n ∈ report.siblings, P.AcceptedNode rules L s n := by
  simp only [Queries.siblings, bind_eq_ok, h.getAccepted_eq_ok hs] at hq
  obtain ⟨r, ⟨hr, rfl⟩, data, -, hreport⟩ := hq
  cases hreport
  refine ⟨⟨r, hr, rfl⟩, ?_⟩
  intro n hn
  obtain ⟨other, hother, rfl⟩ := List.mem_map.mp hn
  obtain ⟨hin, hcond⟩ := List.mem_filter.mp hother
  simp only [Bool.and_eq_true] at hcond
  exact ⟨other, ((h.isAccepted_iff hs hin).mp hcond.1.2).1, rfl⟩

theorem Verified.frontier_accepted :
    ∀ e ∈ (P.context rules L s).frontier P, P.AcceptedNode rules L s e.node := by
  intro e he
  obtain ⟨r, hr, hreason⟩ := List.mem_filterMap.mp he
  obtain ⟨hin, hcond⟩ := List.mem_filter.mp hr
  obtain ⟨reason, -, rfl⟩ := Option.map_eq_some_iff.mp hreason
  exact ⟨r, ((h.isAccepted_iff hs hin).mp hcond).1, rfl⟩

/-! ## Evidence -/

section Evidence

variable (hno : ¬P.UsesRejectedEvaluation L)
include hno

/-- Where no accepted Selection Uses a rejected Evaluation, its evidence is accepted. -/
theorem Verified.selectionEvidence_accepted {sel : Record} (hsel : sel ∈ P.accepted L)
    (hk : sel.kind = .selection) :
    ∀ e ∈ (P.context rules L s).selectionEvidence P sel, P.AcceptedNode rules L s e.node := by
  intro e he
  obtain ⟨target, htarget, hentry⟩ := List.mem_filterMap.mp he
  split at hentry
  · cases hentry
  · next t ht =>
    obtain ⟨hin, rfl⟩ := (h.byId_eq_some hs).mp ht
    split at hentry
    · cases hentry
    · next hkind =>
      obtain ⟨summary, hsummary, rfl⟩ := Option.map_eq_some_iff.mp hentry
      refine ⟨t, ?_, rfl⟩
      by_contra hrej
      exact hno ⟨sel, hsel, hk, t, hin, hrej, not_not.mp hkind, htarget, by rw [hsummary]; rfl⟩

theorem Verified.evidence_nodes {sel : Record} (hsel : sel ∈ P.accepted L)
    (hk : sel.kind = .selection) :
    ∀ n ∈ (⟨(P.context rules L s).node P sel,
        (P.context rules L s).selectionEvidence P sel⟩ : SelectionEvidence).nodes,
      P.AcceptedNode rules L s n := by
  intro n hn
  rcases List.mem_cons.mp hn with rfl | hn
  · exact ⟨sel, hsel, rfl⟩
  · obtain ⟨e, he, rfl⟩ := List.mem_map.mp hn
    exact h.selectionEvidence_accepted hs hno hsel hk e he

/-- The anchors along a line of accepted records. -/
theorem Verified.anchorEvidence_accepted {line : List DescentStep}
    (hline : ∀ step ∈ line, P.AcceptedNode rules L s step.node) {out : List SelectionEvidence}
    (hout : (P.context rules L s).anchorEvidence P line = .ok out) :
    ∀ e ∈ out, ∀ n ∈ e.nodes, P.AcceptedNode rules L s n := by
  induction line generalizing out with
  | nil =>
    cases hout
    exact fun e he => absurd he List.not_mem_nil
  | cons step line ih =>
    have hrest := fun x hx => hline x (List.mem_cons_of_mem _ hx)
    unfold Queries.anchorEvidence at hout
    split at hout
    · next hname =>
      simp only [bind_eq_ok, h.get_eq_ok hs] at hout
      obtain ⟨sel, ⟨hin, hid⟩, rest, hanchors, hcons⟩ := hout
      cases hcons
      obtain ⟨r, hr, hnode⟩ := hline step List.mem_cons_self
      -- the id in the step is the hex of the record's, so the lookup finds that record
      rw [hnode] at hid hname ⊢
      obtain rfl : sel = r :=
        h.eq_of_id_eq hs hin (mem_of_mem_accepted hr) (hid.trans (parseHex_hexEncode r.id))
      have hk : sel.kind = .selection := UnitEnum.name_inj (α := Kind) hname
      intro e he
      rcases List.mem_cons.mp he with rfl | he
      · exact h.evidence_nodes hs hno hr hk
      · exact ih hrest hanchors e he
    · exact ih hrest hout

theorem Verified.evidence_accepted {id : RecordId} {report : EvidenceReport}
    (hq : (P.context rules L s).evidence P id = .ok report) :
    P.AcceptedNode rules L s report.target ∧
      ∀ e ∈ report.restsOn, ∀ n ∈ e.nodes, P.AcceptedNode rules L s n := by
  simp only [Queries.evidence, bind_eq_ok, h.getAccepted_eq_ok hs] at hq
  obtain ⟨r, ⟨hr, rfl⟩, restsOn, hrests, hreport⟩ := hq
  cases hreport
  refine ⟨⟨r, hr, rfl⟩, ?_⟩
  unfold Queries.restsOn at hrests
  split at hrests
  · next hk =>
    cases hrests
    intro e he
    rw [List.mem_singleton.mp he]
    exact h.evidence_nodes hs hno hr hk
  · obtain ⟨report, hdescent, hanchors⟩ := bind_eq_ok.mp hrests
    exact h.anchorEvidence_accepted hs hno (h.descent_accepted hs hdescent).2 hanchors
  · cases hrests

theorem Verified.selected_accepted (objective : String) :
    ∀ e ∈ ((P.context rules L s).selected P objective).selections, ∀ n ∈ e.nodes,
      P.AcceptedNode rules L s n := by
  intro e he n hn
  obtain ⟨r, hr, hentry⟩ := List.mem_filterMap.mp he
  obtain ⟨hin, hcond⟩ := List.mem_filter.mp hr
  obtain ⟨hacc, hk⟩ := (h.isAccepted_iff hs hin).mp hcond
  split at hentry
  · cases hentry
  · next sd hsd =>
    split at hentry
    · cases hentry
    · split at hentry
      · cases hentry
      · next candidates hout =>
        cases hentry
        rcases List.mem_cons.mp hn with rfl | hn
        · exact ⟨r, hacc, rfl⟩
        rcases List.mem_append.mp hn with hn | hn
        · obtain ⟨c, hc, rfl⟩ := List.mem_map.mp hn
          obtain ⟨cid, hcid, hget⟩ := List.mem_filterMap.mp hc
          obtain ⟨hcin, rfl⟩ := (h.byId_eq_some hs).mp hget
          have hforms := h.considered_accepted hs hacc hk hsd
          obtain ⟨y, hy, hyid, -⟩ := hforms.1 c.id (hforms.2 c.id (by rw [hout]; exact hcid))
          exact ⟨c, h.eq_of_id_eq hs (mem_of_mem_accepted hy) hcin hyid ▸ hy, rfl⟩
        · obtain ⟨entry, hentry, rfl⟩ := List.mem_map.mp hn
          exact h.selectionEvidence_accepted hs hno hacc hk entry hentry

/-- Every answer, under the condition on Used Evaluations. -/
theorem Verified.answer_accepted {q : Query} {nodes : List Node}
    (hq : (P.context rules L s).answer P q = .ok nodes) :
    ∀ n ∈ nodes, P.AcceptedNode rules L s n := by
  cases q with
  | descent id =>
    obtain ⟨report, hreport, rfl⟩ := map_eq_ok.mp hq
    obtain ⟨htarget, hline⟩ := h.descent_accepted hs hreport
    exact List.forall_mem_cons.mpr ⟨htarget, List.forall_mem_map.mpr hline⟩
  | descendants id =>
    obtain ⟨report, hreport, rfl⟩ := map_eq_ok.mp hq
    exact List.forall_mem_cons.mpr (h.descendants_accepted hs hreport)
  | siblings id =>
    obtain ⟨report, hreport, rfl⟩ := map_eq_ok.mp hq
    exact List.forall_mem_cons.mpr (h.siblings_accepted hs hreport)
  | frontier =>
    cases hq
    exact List.forall_mem_map.mpr (h.frontier_accepted hs)
  | standing id =>
    obtain ⟨report, hreport, rfl⟩ := map_eq_ok.mp hq
    simp only [Queries.standing, bind_eq_ok, h.getAccepted_eq_ok hs] at hreport
    obtain ⟨r, ⟨hr, rfl⟩, heq⟩ := hreport
    cases heq
    exact List.forall_mem_singleton.mpr ⟨r, hr, rfl⟩
  | evidence id =>
    obtain ⟨report, hreport, rfl⟩ := map_eq_ok.mp hq
    obtain ⟨htarget, hrests⟩ := h.evidence_accepted hs hno hreport
    refine List.forall_mem_cons.mpr ⟨htarget, ?_⟩
    intro n hn
    obtain ⟨e, he, hn⟩ := List.mem_flatMap.mp hn
    exact hrests e he n hn
  | selected objective =>
    cases hq
    intro n hn
    obtain ⟨e, he, hn⟩ := List.mem_flatMap.mp hn
    exact h.selected_accepted hs hno objective e he n hn

end Evidence

/-- A rejected Evaluation that a Selection Uses shows up in the Selection's evidence. -/
theorem Verified.not_queriesAccepted (huses : P.UsesRejectedEvaluation L) :
    ¬P.QueriesAccepted rules L := by
  obtain ⟨sel, hsel, hk, e, he, hrej, hek, huse, hsummary⟩ := huses
  obtain ⟨summary, hsummary⟩ := Option.isSome_iff_exists.mp hsummary
  intro hall
  have hentry : (⟨(P.context rules L s).node P e, summary.2.1, summary.2.2⟩ : EvidenceEntry) ∈
      (P.context rules L s).selectionEvidence P sel := by
    refine List.mem_filterMap.mpr ⟨e.id, huse, ?_⟩
    rw [(h.byId_eq_some hs).mpr ⟨he, rfl⟩]
    simp only [hek, ne_eq, not_true, if_false, hsummary, Option.map_some]
  have hanswer : (P.context rules L s).answer P (.evidence sel.id) =
      .ok ((P.context rules L s).node P sel ::
        [⟨(P.context rules L s).node P sel,
          (P.context rules L s).selectionEvidence P sel⟩].flatMap SelectionEvidence.nodes) := by
    refine map_eq_ok.mpr ⟨⟨_, _⟩, ?_, rfl⟩
    refine bind_eq_ok.mpr ⟨sel, (h.getAccepted_eq_ok hs).mpr ⟨hsel, rfl⟩, ?_⟩
    refine bind_eq_ok.mpr ⟨_, ?_, rfl⟩
    simp only [Queries.restsOn, hk]
  have hmem : (P.context rules L s).node P e ∈ (P.context rules L s).node P sel ::
      [(⟨(P.context rules L s).node P sel,
        (P.context rules L s).selectionEvidence P sel⟩ : SelectionEvidence)].flatMap
          SelectionEvidence.nodes := by
    refine List.mem_cons_of_mem _ (List.mem_flatMap.mpr ⟨_, List.mem_singleton_self _, ?_⟩)
    exact List.mem_cons_of_mem _ (List.mem_map.mpr ⟨_, hentry, rfl⟩)
  obtain ⟨r, hr, hid, -⟩ := hall _ h.queries_eq _ _ hanswer _ hmem
  -- the node of the rejected record has the id of an accepted one
  have heq : e = r := h.eq_of_id_eq hs he (mem_of_mem_accepted hr) (hexEncode_inj hid)
  exact hrej (heq ▸ hr)

end Context

/-- A root candidate with a reported git tree. -/
def sampleCandidate : Record :=
  sampleSubject 0x045f506bf51c2ae0ec37f0abcab47223dcbc7ef6d593d5bcceb9ca0b3e318fff
    1 byAgent .candidate schemaCandidate
    (payload (⟨⟨⟨.sha1, String.ofList (List.replicate 40 'a'), none⟩, none, .reported⟩, .root, none,
      none, none⟩ : CandidateData)) []

/-- An Evaluation of the candidate without a Use ref to it. -/
def rejectedEvaluation : Record :=
  sampleSubject 0x9a61dde39194b41454df06a82b8e4d9d18d4969a5738538594e0247fd23155e7
    3 byUser .evaluation schemaEvaluation
    (payload (⟨sampleCandidate.id, "c", none, .passed⟩ : EvaluationData)) []

/-- A Selection that chooses nothing, and Uses the Evaluation. -/
def sampleSelection : Record :=
  { sampleSubject 0x0c33830db367b98907499082da3737de5d4c1f02173e03b308ff990a9f3ade43
      5 byUser .selection schemaSelection
      (payload (⟨"o", [sampleCandidate.id], .none, none⟩ : SelectionData))
      [⟨.use, rejectedEvaluation.id⟩] with evidence := .assumed }

def evidenceLog : List Record :=
  [sampleCandidate,
    acceptance 0xed09609f11264ba0b21dc39c03e5b96a429345fa55d390ac3b313900ad984d83 sampleCandidate,
    rejectedEvaluation,
    { acceptance 0x5ba3c085b6521421f10b1239ec4a56dec249d1bb97a95f5990439260751708b8
        rejectedEvaluation with data := payload (⟨.reject, some .evaluationInvalid⟩ : VerdictData) },
    sampleSelection,
    acceptance 0xb58c9d86fa5e7c31ff85ad66b485bc81b53433b6ef58752ded65e7e49eae4dca sampleSelection]

def evidenceHistory : reference.AcceptedLog sampleRules where
  val := evidenceLog
  property := by decide +kernel

theorem evidenceLog_accepts : reference.Accepts sampleRules evidenceLog := evidenceHistory.property

theorem accepted_evidenceLog :
    reference.accepted evidenceLog = [sampleCandidate, sampleSelection] := by decide +kernel

theorem evidenceLog_hashSound : reference.HashSound evidenceLog := by
  obtain ⟨s, hv⟩ := accepts_iff.mp evidenceLog_accepts
  refine hashSound_of_nodup hv.ids ?_ (by decide +kernel)
  rw [map_schemaId]
  decide +kernel

theorem evidenceLog_usesRejected : reference.UsesRejectedEvaluation evidenceLog := by
  refine ⟨sampleSelection, ?_, rfl, rejectedEvaluation, ?_, ?_, rfl, ?_, ?_⟩
  · rw [accepted_evidenceLog]
    exact List.mem_cons_of_mem _ List.mem_cons_self
  · exact List.mem_of_getElem? (i := 2) rfl
  · rw [accepted_evidenceLog]
    decide +kernel
  · exact List.mem_cons_self
  · decide +kernel

end Bellbook
