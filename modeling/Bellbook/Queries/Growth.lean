import Bellbook.Queries.Evidence
import Bellbook.Verify.Temporal

/-!
# Answers over a growing log

The log is append-only, and so are the answers. What an answer says of a record is what the record says of
itself, and marks: its standing, its taint, its retraction. Over an extension the marks may change
(`standing_moves`), but not the rest: lines of descent and evidence stay as they are, and the listings only grow
at their end (`answers_grow`).
-/

namespace Bellbook

open Std Relation

/-- What a node says apart from the marks. -/
def Node.unmarked (n : Node) : Node := { n with standing := "", tainted := false, retracted := false }

def DescentStep.unmarked (step : DescentStep) : DescentStep := { step with node := step.node.unmarked }

def EvidenceEntry.unmarked (e : EvidenceEntry) : EvidenceEntry := { e with node := e.node.unmarked }

def SelectionEvidence.unmarked (e : SelectionEvidence) : SelectionEvidence :=
  ⟨e.selection.unmarked, e.evidence.map EvidenceEntry.unmarked⟩

def SelectedEntry.unmarked (e : SelectedEntry) : SelectedEntry :=
  ⟨e.selection.unmarked, e.chosen.map Node.unmarked, e.evidence.map EvidenceEntry.unmarked⟩

/-- Both queries are answered, and the answers relate. -/
def BothAnswer {α : Type} (R : α → α → Prop) (a a' : Except QueryError α) : Prop :=
  ∃ x x', a = .ok x ∧ a' = .ok x' ∧ R x x'

/-- The answers `Q'` gives of the records of `T` are those `Q` gives, grown. -/
structure Platform.AnswersGrow (P : Platform) (T : List Record) (Q Q' : Queries) : Prop where
  descent : ∀ c ∈ P.accepted T, c.kind = .candidate → BothAnswer
    (fun report report' => report.line.map DescentStep.unmarked = report'.line.map DescentStep.unmarked)
    (Q.descent P c.id) (Q'.descent P c.id)
  evidence : ∀ x ∈ P.accepted T, x.kind = .selection ∨ x.kind = .candidate → BothAnswer
    (fun report report' =>
      report.restsOn.map SelectionEvidence.unmarked = report'.restsOn.map SelectionEvidence.unmarked)
    (Q.evidence P x.id) (Q'.evidence P x.id)
  descendants : ∀ x ∈ P.accepted T, BothAnswer
    (fun report report' => report.descendants.map Node.unmarked <+: report'.descendants.map Node.unmarked)
    (Q.descendants P x.id) (Q'.descendants P x.id)
  siblings : ∀ c ∈ P.accepted T, c.kind = .candidate → BothAnswer
    (fun report report' => report.siblings.map Node.unmarked <+: report'.siblings.map Node.unmarked)
    (Q.siblings P c.id) (Q'.siblings P c.id)
  selected : ∀ objective, (Q.selected P objective).selections.map SelectedEntry.unmarked <+:
    (Q'.selected P objective).selections.map SelectedEntry.unmarked

variable {P : Platform} {rules : VerifierRules} {T M : List Record} {t s : State}

section Growth

variable (ht : Verified P rules T t) (h : Verified P rules (T ++ M) s) (hs : P.HashSound (T ++ M))
include ht h hs

/-! ## Lookups -/

omit ht in
theorem Verified.get_grown {x : Record} (hx : x ∈ T) :
    (P.context rules (T ++ M) s).get x.id = .ok x :=
  (h.get_eq_ok hs).mpr ⟨List.mem_append_left _ hx, rfl⟩

theorem Verified.byId_grown {id : RecordId} {x : Record} (hx : x ∈ T) (hid : x.id = id) :
    (P.context rules (T ++ M) s).byId[id]? = (P.context rules T t).byId[id]? := by
  rw [(h.byId_eq_some hs).mpr ⟨List.mem_append_left _ hx, hid⟩, (ht.byId_eq_some hs.left).mpr ⟨hx, hid⟩]

/-- The target of a ref of an older record is as it was. -/
theorem Verified.target_grown {c : Record} (hc : c ∈ P.accepted T) {type : RefType} {id : RecordId}
    (hid : id ∈ refTargets type c.refs) :
    (P.context rules (T ++ M) s).byId[id]? = (P.context rules T t).byId[id]? := by
  obtain ⟨i, hi, rfl⟩ := List.mem_iff_getElem.mp (mem_of_mem_accepted hc)
  obtain ⟨u, -, hcheck⟩ := ht.accepted_at hs.left hi hc
  obtain ⟨ref, href, -, rfl⟩ := mem_refTargets.mp hid
  have htarget := (checkSubject_passes hcheck).targets ref href
  simp only [Platform.checkRef, orReject_eq_none] at htarget
  obtain ⟨y, hfind, -⟩ := htarget
  obtain ⟨hy, hyid⟩ := find_mem hfind
  exact ht.byId_grown h hs (List.take_subset _ _ hy) hyid

/-- The edges of an older Candidate are as they were. -/
theorem Verified.backEdges_grown {c : Record} (hc : c ∈ P.accepted T) (d : CandidateData) :
    (P.context rules (T ++ M) s).backEdges c d = (P.context rules T t).backEdges c d := by
  unfold Queries.backEdges
  cases hb : d.basis with
  | root => rfl
  | continuation => rfl
  | derivation =>
    have hsame : ∀ id ∈ Queries.sortedCauses c,
        (((P.context rules (T ++ M) s).byId[id]?).any fun t => t.kind = .candidate) =
          (((P.context rules T t).byId[id]?).any fun t => t.kind = .candidate) := by
      intro id hid
      rw [ht.target_grown h hs hc (mem_sortedCauses.mp hid)]
    dsimp only
    rw [List.filter_congr hsame]

/-- What an older Selection Uses is as it was, apart from the marks. -/
theorem Verified.selectionEvidence_grown {x : Record} (hx : x ∈ P.accepted T) :
    ((P.context rules (T ++ M) s).selectionEvidence P x).map EvidenceEntry.unmarked =
      ((P.context rules T t).selectionEvidence P x).map EvidenceEntry.unmarked := by
  unfold Queries.selectionEvidence
  rw [List.map_filterMap, List.map_filterMap]
  apply List.filterMap_congr
  intro id hid
  rw [ht.target_grown h hs hx hid]
  cases (P.context rules T t).byId[id]? with
  | none => rfl
  | some y =>
    -- the entries of one record differ in their marks only
    by_cases hk : y.kind = .evaluation
    · simp only [hk, ne_eq, not_true, if_false, Option.map_map]
      rfl
    · simp [hk]

/-! ## Lines -/

omit ht h hs in
theorem unmarked_concat {line line' : List DescentStep} {Q Q' : Queries} (r : Record) (via : String)
    (hline : line.map DescentStep.unmarked = line'.map DescentStep.unmarked) :
    (line ++ [DescentStep.mk (Q.node P r) via]).map DescentStep.unmarked =
      (line' ++ [DescentStep.mk (Q'.node P r) via]).map DescentStep.unmarked := by
  rw [List.map_append, List.map_append, hline]
  rfl

/-- The search from an older Candidate takes the same steps. -/
theorem Verified.descentLoop_grown (seen : IdSet) (queue : List (RecordId × String))
    (line line' : List DescentStep) (hline : line.map DescentStep.unmarked = line'.map DescentStep.unmarked)
    (hqueue : ∀ e ∈ queue, P.AcceptedId T e.1) {result : List DescentStep}
    (hloop : (P.context rules T t).descentLoop P seen queue line = .ok result) :
    ∃ result', (P.context rules (T ++ M) s).descentLoop P seen queue line' = .ok result' ∧
      result.map DescentStep.unmarked = result'.map DescentStep.unmarked := by
  have hget {id : RecordId} {via : String} {queue : List (RecordId × String)} {anc : Record}
      (hqueue : ∀ e ∈ (id, via) :: queue, P.AcceptedId T e.1)
      (hanc : (P.context rules T t).get id = .ok anc) :
      anc ∈ P.accepted T ∧ (P.context rules (T ++ M) s).get id = .ok anc := by
    have hacc := ht.eq_of_acceptedId hs.left (hqueue _ List.mem_cons_self) hanc
    obtain ⟨hmem, rfl⟩ := (ht.get_eq_ok hs.left).mp hanc
    exact ⟨hacc, h.get_grown hs hmem⟩
  fun_induction Queries.descentLoop P (P.context rules T t) seen queue line generalizing line' with
  | case1 seen line =>
    cases hloop
    exact ⟨line', by rw [Queries.descentLoop], hline⟩
  | case2 seen line id via queue hin ih =>
    obtain ⟨result', hres, heq⟩ := ih line' hline (fun e he => hqueue e (List.mem_cons_of_mem _ he)) hloop
    exact ⟨result', by rw [Queries.descentLoop, dif_pos hin, hres], heq⟩
  | case3 => cases hloop
  | case4 => cases hloop
  | case5 seen line id via queue hnew anc hanc hk ad had ih =>
    obtain ⟨hacc, hgrown⟩ := hget hqueue hanc
    have hrest : ∀ e ∈ queue ++ (P.context rules T t).backEdges anc ad, P.AcceptedId T e.1 := by
      intro e he
      rcases List.mem_append.mp he with he | he
      · exact hqueue e (List.mem_cons_of_mem _ he)
      · exact ht.backEdges_accepted hs.left hacc had e he
    obtain ⟨result', hres, heq⟩ := ih _ (unmarked_concat anc via hline) hrest hloop
    refine ⟨result', ?_, heq⟩
    rw [Queries.descentLoop, dif_neg hnew]
    split
    · next herr => rw [hgrown] at herr; cases herr
    next anc' hanc' =>
    rw [hgrown] at hanc'
    cases hanc'
    rw [if_pos hk, had]
    dsimp only
    rw [ht.backEdges_grown h hs hacc]
    exact hres
  | case6 seen line id via queue hnew anc hanc hk ih =>
    obtain ⟨hacc, hgrown⟩ := hget hqueue hanc
    obtain ⟨result', hres, heq⟩ := ih _ (unmarked_concat anc via hline)
      (fun e he => hqueue e (List.mem_cons_of_mem _ he)) hloop
    refine ⟨result', ?_, heq⟩
    rw [Queries.descentLoop, dif_neg hnew]
    split
    · next herr => rw [hgrown] at herr; cases herr
    next anc' hanc' =>
    rw [hgrown] at hanc'
    cases hanc'
    rw [if_neg hk]
    exact hres

theorem Verified.descent_grown {c : Record} (hc : c ∈ P.accepted T) (hk : c.kind = .candidate) :
    ∃ line line', (P.context rules T t).descent P c.id = .ok ⟨(P.context rules T t).node P c, line⟩ ∧
      (P.context rules (T ++ M) s).descent P c.id = .ok ⟨(P.context rules (T ++ M) s).node P c, line'⟩ ∧
      line.map DescentStep.unmarked = line'.map DescentStep.unmarked := by
  obtain ⟨line, -, hdescent, -⟩ := ht.descent_exact hs.left hc hk
  have hsteps := hdescent
  simp only [Queries.descent, bind_eq_ok, ht.getAccepted_eq_ok hs.left] at hsteps
  obtain ⟨c', ⟨hc', hid⟩, d, hd, found, hloop, hreport⟩ := hsteps
  obtain rfl := ht.run.eq_of_accepted_id hc' hc hid
  cases hreport
  have hsub := accepted_mono ht.run (List.prefix_append T M)
  obtain ⟨line', hloop', hline⟩ := ht.descentLoop_grown h hs _ _ _ [] rfl
    (ht.backEdges_accepted hs.left hc hd) hloop
  refine ⟨line, line', hdescent, ?_, hline⟩
  refine bind_eq_ok.mpr ⟨c', (h.getAccepted_eq_ok hs).mpr ⟨hsub hc, rfl⟩, bind_eq_ok.mpr ⟨d, hd, ?_⟩⟩
  rw [ht.backEdges_grown h hs hc]
  exact bind_eq_ok.mpr ⟨line', hloop', rfl⟩

/-- The ancestors of an older Candidate are those it had. -/
theorem Verified.ancestors_grown {c : Record} (hc : c ∈ P.accepted T) (hk : c.kind = .candidate) :
    ∃ (line line' : List DescentStep) (ancestors : List Record),
      (P.context rules T t).descent P c.id = .ok ⟨(P.context rules T t).node P c, line⟩ ∧
      (P.context rules (T ++ M) s).descent P c.id = .ok ⟨(P.context rules (T ++ M) s).node P c, line'⟩ ∧
      line.map DescentStep.node = ancestors.map ((P.context rules T t).node P) ∧
      line'.map DescentStep.node = ancestors.map ((P.context rules (T ++ M) s).node P) ∧
      ∀ y ∈ ancestors, y ∈ P.accepted T := by
  have hsub := accepted_mono ht.run (List.prefix_append T M)
  obtain ⟨line, line', hdescent, hdescent', hline⟩ := ht.descent_grown h hs hc hk
  obtain ⟨line₁, ancestors, hfound, hnodes, hL⟩ := ht.descent_exact hs.left hc hk
  obtain ⟨line₂, ancestors', hfound', hnodes', hL'⟩ := h.descent_exact hs (hsub hc) hk
  rw [hdescent] at hfound
  rw [hdescent'] at hfound'
  cases hfound
  cases hfound'
  have hacc : ∀ y ∈ ancestors, y ∈ P.accepted T := fun y hy =>
    (ht.backEdges_earlier hs.left hc ((hL.mem y).mp hy)).1
  have hacc' : ∀ y ∈ ancestors', y ∈ P.accepted (T ++ M) := fun y hy =>
    (h.backEdges_earlier hs (hsub hc) ((hL'.mem y).mp hy)).1
  -- the two lines have the same ids, and an id has one accepted record
  have hids : ancestors'.map Record.id = ancestors.map Record.id := by
    have hhex : Function.Injective hexEncode := Function.LeftInverse.injective parseHex_hexEncode
    apply List.map_injective_iff.mpr hhex
    have hid := congrArg (List.map fun step : DescentStep => step.node.id) hline
    have hread (line : List DescentStep) (Q : Queries) (ys : List Record)
        (hys : line.map DescentStep.node = ys.map (Q.node P)) :
        (line.map DescentStep.unmarked).map (fun step => step.node.id) = (ys.map Record.id).map hexEncode := by
      have := congrArg (List.map Node.id) hys
      rw [List.map_map, List.map_map] at this
      rw [List.map_map, List.map_map]
      exact this
    rw [hread _ _ _ hnodes, hread _ _ _ hnodes'] at hid
    exact hid.symm
  have heq : ancestors' = ancestors := by
    clear hnodes hnodes' hL hL' hline hdescent hdescent'
    induction ancestors' generalizing ancestors with
    | nil => exact (List.map_eq_nil_iff.mp hids.symm).symm
    | cons y ys ih =>
      cases ancestors with
      | nil => cases hids
      | cons z zs =>
        rw [List.map_cons, List.map_cons, List.cons.injEq] at hids
        obtain ⟨hyz, hids⟩ := hids
        rw [h.run.eq_of_accepted_id (hacc' y List.mem_cons_self) (hsub (hacc z List.mem_cons_self)) hyz,
          ih zs (fun x hx => hacc x (List.mem_cons_of_mem _ hx))
            (fun x hx => hacc' x (List.mem_cons_of_mem _ hx)) hids]
  exact ⟨line, line', ancestors, hdescent, hdescent', hnodes, heq ▸ hnodes', hacc⟩

theorem Verified.decision_grown {x : Record} (hx : x ∈ P.accepted T) :
    ((P.context rules (T ++ M) s).decision P x).unmarked = ((P.context rules T t).decision P x).unmarked := by
  simp only [SelectionEvidence.unmarked, Queries.decision, ht.selectionEvidence_grown h hs hx]
  rfl

theorem Verified.evidence_grown {x : Record} (hx : x ∈ P.accepted T)
    (hk : x.kind = .selection ∨ x.kind = .candidate) :
    BothAnswer (fun report report' =>
        report.restsOn.map SelectionEvidence.unmarked = report'.restsOn.map SelectionEvidence.unmarked)
      ((P.context rules T t).evidence P x.id) ((P.context rules (T ++ M) s).evidence P x.id) := by
  have hget := (ht.getAccepted_eq_ok hs.left).mpr ⟨hx, rfl⟩
  have hget' := (h.getAccepted_eq_ok hs).mpr ⟨accepted_mono ht.run (List.prefix_append T M) hx, rfl⟩
  rcases hk with hk | hk
  · refine ⟨⟨_, [(P.context rules T t).decision P x]⟩, ⟨_, [(P.context rules (T ++ M) s).decision P x]⟩,
      bind_eq_ok.mpr ⟨x, hget, bind_eq_ok.mpr ⟨_, ?_, rfl⟩⟩,
      bind_eq_ok.mpr ⟨x, hget', bind_eq_ok.mpr ⟨_, ?_, rfl⟩⟩, ?_⟩
    · rw [Queries.restsOn, hk]
      rfl
    · rw [Queries.restsOn, hk]
      rfl
    · simp only [List.map_cons, List.map_nil, ht.decision_grown h hs hx]
  · obtain ⟨line, line', ancestors, hdescent, hdescent', hline, hline', hacc⟩ := ht.ancestors_grown h hs hx hk
    have hsub := accepted_mono ht.run (List.prefix_append T M)
    refine ⟨⟨_, (ancestors.filter fun y => y.kind = .selection).map ((P.context rules T t).decision P)⟩,
      ⟨_, (ancestors.filter fun y => y.kind = .selection).map ((P.context rules (T ++ M) s).decision P)⟩,
      bind_eq_ok.mpr ⟨x, hget, bind_eq_ok.mpr ⟨_, ?_, rfl⟩⟩,
      bind_eq_ok.mpr ⟨x, hget', bind_eq_ok.mpr ⟨_, ?_, rfl⟩⟩, ?_⟩
    · rw [Queries.restsOn, hk]
      exact bind_eq_ok.mpr ⟨_, hdescent, ht.anchorEvidence_eq hs.left hline hacc⟩
    · rw [Queries.restsOn, hk]
      exact bind_eq_ok.mpr ⟨_, hdescent', h.anchorEvidence_eq hs hline' fun y hy => hsub (hacc y hy)⟩
    · dsimp only
      rw [List.map_map, List.map_map]
      apply List.map_congr_left
      intro y hy
      exact (ht.decision_grown h hs (hacc y (List.mem_of_mem_filter hy))).symm

/-! ## Listings -/

theorem Verified.isAccepted_grown {kind : Kind} {r : Record} (hr : r ∈ T) :
    (P.context rules (T ++ M) s).isAccepted kind r = (P.context rules T t).isAccepted kind r := by
  rw [Bool.eq_iff_iff, h.isAccepted_iff hs (List.mem_append_left _ hr), ht.isAccepted_iff hs.left hr]
  constructor
  · intro ⟨hacc, hk⟩
    exact ⟨ht.accepted_of_mem_left h hr hacc, hk⟩
  · intro ⟨hacc, hk⟩
    exact ⟨accepted_mono ht.run (List.prefix_append T M) hacc, hk⟩

theorem Verified.isDescendant_grown {x r : Record} (hr : r ∈ T) :
    (P.context rules (T ++ M) s).isDescendant P x.id r = (P.context rules T t).isDescendant P x.id r := by
  unfold Queries.isDescendant
  rw [ht.isAccepted_grown h hs hr]
  cases hcand : (P.context rules T t).isAccepted .candidate r with
  | false => simp
  | true =>
    obtain ⟨hacc, hk⟩ := (ht.isAccepted_iff hs.left hr).mp hcand
    obtain ⟨line, line', hdescent, hdescent', hline⟩ := ht.descent_grown h hs hacc hk
    have hany (line : List DescentStep) : (line.any fun step => step.node.id = hexEncode x.id) =
        (line.map DescentStep.unmarked).any fun step => step.node.id = hexEncode x.id := by
      rw [List.any_map]
      rfl
    rw [hdescent, hdescent']
    dsimp only
    rw [hany line, hany line', hline]

theorem Verified.descendants_grown {x : Record} (hx : x ∈ P.accepted T) :
    BothAnswer
      (fun report report' => report.descendants.map Node.unmarked <+: report'.descendants.map Node.unmarked)
      ((P.context rules T t).descendants P x.id) ((P.context rules (T ++ M) s).descendants P x.id) := by
  have hx' := accepted_mono ht.run (List.prefix_append T M) hx
  refine ⟨_, _, ht.descendants_eq hs.left hx, h.descendants_eq hs hx', ?_⟩
  dsimp only
  rw [List.filter_append, List.filter_congr fun r hr => ht.isDescendant_grown h hs hr, List.map_append,
    List.map_append, List.map_map, List.map_map]
  exact List.prefix_append _ _

theorem Verified.siblings_grown {c : Record} (hc : c ∈ P.accepted T) (hk : c.kind = .candidate) :
    BothAnswer (fun report report' => report.siblings.map Node.unmarked <+: report'.siblings.map Node.unmarked)
      ((P.context rules T t).siblings P c.id) ((P.context rules (T ++ M) s).siblings P c.id) := by
  obtain ⟨d, hform⟩ := ht.candidate_form hs.left hc hk
  have hc' := accepted_mono ht.run (List.prefix_append T M) hc
  refine ⟨_, _, ht.siblings_eq hs.left hc hk hform.payload, h.siblings_eq hs hc' hk hform.payload, ?_⟩
  dsimp only
  rw [accepted_append_of_even ht.run, List.filter_append, List.filter_append, List.map_append, List.map_append,
    List.map_map, List.map_map]
  exact List.prefix_append _ _

/-- A decision is listed as it was. -/
theorem Verified.selectedEntry_grown {x : Record} (hx : x ∈ P.accepted T) (hk : x.kind = .selection) :
    ((P.context rules (T ++ M) s).selectedEntry P x).unmarked =
      ((P.context rules T t).selectedEntry P x).unmarked := by
  obtain ⟨d, hform⟩ := ht.decision_form hs.left hx hk
  have hwinners : P.winnersOf x = d.outcome.winners := by simp [Platform.winnersOf, hform.payload]
  have hknown : (P.context rules (T ++ M) s).known (P.winnersOf x) =
      (P.context rules T t).known (P.winnersOf x) := by
    apply List.filterMap_congr
    intro id hid
    obtain ⟨c, hc⟩ := hform.offered id (hform.winners.2 id (hwinners ▸ hid))
    exact ht.byId_grown h hs (mem_of_mem_accepted hc.accepted) hc.id
  simp only [SelectedEntry.unmarked, Queries.selectedEntry, ht.selectionEvidence_grown h hs hx, hknown,
    List.map_map]
  rfl

theorem Verified.selected_grown (objective : String) :
    ((P.context rules T t).selected P objective).selections.map SelectedEntry.unmarked <+:
      ((P.context rules (T ++ M) s).selected P objective).selections.map SelectedEntry.unmarked := by
  rw [ht.selected_eq, h.selected_eq, accepted_append_of_even ht.run, List.filter_append, List.filter_append,
    List.map_append, List.map_append, List.map_map, List.map_map]
  have hsame : (((P.accepted T).filter fun x => x.kind = .selection).filter (P.decides objective)).map
        (SelectedEntry.unmarked ∘ (P.context rules (T ++ M) s).selectedEntry P) =
      (((P.accepted T).filter fun x => x.kind = .selection).filter (P.decides objective)).map
        (SelectedEntry.unmarked ∘ (P.context rules T t).selectedEntry P) := by
    apply List.map_congr_left
    intro x hx
    simp only [List.mem_filter, decide_eq_true_eq] at hx
    exact ht.selectedEntry_grown h hs hx.1.1 hx.1.2
  rw [hsame]
  exact List.prefix_append _ _

end Growth

/-- **The answers grow with the log.** When a verified log extends another, every line of descent and all evidence
of the older log are answered as before, apart from the marks of the records, and descendants, siblings
and decisions are listed as before with the later ones at the end. -/
theorem answers_grow (h : P.Accepts rules T) (hs : P.HashSound (T ++ M)) (h' : P.Accepts rules (T ++ M)) :
    ∃ Q Q', P.queries rules T = .ok Q ∧ P.queries rules (T ++ M) = .ok Q' ∧ P.AnswersGrow T Q Q' := by
  obtain ⟨t, ht⟩ := accepts_iff.mp h
  obtain ⟨s, hv⟩ := accepts_iff.mp h'
  refine ⟨_, _, ht.queries_eq, hv.queries_eq, ?_⟩
  constructor
  · intro c hc hk
    obtain ⟨line, line', hdescent, hdescent', hline⟩ := ht.descent_grown hv hs hc hk
    exact ⟨_, _, hdescent, hdescent', hline⟩
  · intro x hx hk
    exact ht.evidence_grown hv hs hx hk
  · intro x hx
    exact ht.descendants_grown hv hs hx
  · intro c hc hk
    exact ht.siblings_grown hv hs hc hk
  · intro objective
    exact ht.selected_grown hv hs objective

/-- The first derivation keeps its line, and gains a sibling. -/
theorem lineLog_grows : ∃ Q Q', reference.queries sampleRules lineLog = .ok Q ∧
    reference.queries sampleRules generationLog = .ok Q' ∧ reference.AnswersGrow lineLog Q Q' :=
  answers_grow lineLog_accepts generationLog_hashSound generationLog_accepts

end Bellbook
