import Bellbook.Queries.Listings

/-!
# The evidence that is reported

`evidence` and `selected` report Selections with the Evaluations they Use. `EvidenceOf` says which entries a
Selection gets: every accepted Evaluation it Uses has one, with the criterion and the outcome that it
recorded about a Candidate the Selection considered. For a Candidate the anchors along its line are reported
(`Verified.anchorEvidence_eq`), and under an objective every decision for it, with all that it chose
(`evidence_exact`).
-/

namespace Bellbook

open Std Relation

/-- A Selection with its evidence. -/
def Queries.decision (P : Platform) (Q : Queries) (x : Record) : SelectionEvidence :=
  ⟨Q.node P x, Q.selectionEvidence P x⟩

/-- The ids a Selection chose. -/
def Platform.winnersOf (P : Platform) (x : Record) : List RecordId :=
  ((P.decode SelectionData x.data).map fun d => d.outcome.winners).getD []

/-- A Selection under its objective, with what it chose and its evidence. -/
def Queries.selectedEntry (P : Platform) (Q : Queries) (x : Record) : SelectedEntry :=
  ⟨Q.node P x, (Q.known (P.winnersOf x)).map (Q.node P), Q.selectionEvidence P x⟩

/-- The Selection chose something under the objective. -/
def Platform.decides (P : Platform) (objective : String) (x : Record) : Bool :=
  (P.decode SelectionData x.data).any fun d => d.objective = objective && d.outcome ≠ .none

/-- The entries report what the Selection Uses, in the order of its refs. -/
structure Platform.EvidenceOf (P : Platform) (L : List Record) (Q : Queries) (x : Record) (d : SelectionData)
    (entries : List EvidenceEntry) : Prop where
  complete : ∀ e ∈ P.accepted L, e.kind = .evaluation → e.id ∈ refTargets .use x.refs →
    ∃ c criterion outcome, P.Judgment L x e c criterion outcome ∧ c.id ∈ d.considered ∧
      ⟨Q.node P e, criterion, outcome⟩ ∈ entries
  sound : ∀ entry ∈ entries, ∃ e ∈ L, e.kind = .evaluation ∧ e.id ∈ refTargets .use x.refs ∧
    entry.node = Q.node P e ∧
    (e ∈ P.accepted L → ∃ c, P.Judgment L x e c entry.criterion entry.outcome)
  order : (entries.map fun entry => entry.node.id).Sublist ((refTargets .use x.refs).map hexEncode)

variable {P : Platform} {rules : VerifierRules} {L : List Record} {s : State}

theorem sublist_map_filterMap {α β γ : Type} {f : α → Option β} {g : β → γ} {k : α → γ} {l : List α}
    (hf : ∀ a ∈ l, ∀ b, f a = some b → g b = k a) : ((l.filterMap f).map g).Sublist (l.map k) := by
  induction l with
  | nil => exact .slnil
  | cons a l ih =>
    have ih := ih fun x hx => hf x (List.mem_cons_of_mem _ hx)
    rw [List.filterMap_cons, List.map_cons]
    cases hb : f a with
    | none => exact ih.cons _
    | some b =>
      rw [List.map_cons, hf a List.mem_cons_self b hb]
      exact ih.cons_cons _

theorem filterMap_ite {α β : Type} {p : α → Bool} {g : α → β} (l : List α) :
    (l.filterMap fun a => if p a then some (g a) else none) = (l.filter p).map g := by
  induction l with
  | nil => rfl
  | cons a l ih =>
    by_cases hp : p a = true
    · simp [hp, ih]
    · simp [hp, ih]

section Reports

variable (h : Verified P rules L s) (hs : P.HashSound L)
include h hs

/-! ## One Selection -/

theorem Verified.mem_selectionEvidence {x : Record} {entry : EvidenceEntry} :
    entry ∈ (P.context rules L s).selectionEvidence P x ↔ ∃ e ∈ L, e.id ∈ refTargets .use x.refs ∧
      e.kind = .evaluation ∧ ∃ summary, P.evaluationSummary e.schema e.data = some summary ∧
        entry = ⟨(P.context rules L s).node P e, summary.2.1, summary.2.2⟩ := by
  unfold Queries.selectionEvidence
  rw [List.mem_filterMap]
  constructor
  · rintro ⟨id, hid, hentry⟩
    split at hentry
    · cases hentry
    next e he =>
    obtain ⟨hin, rfl⟩ := (h.byId_eq_some hs).mp he
    split at hentry
    · cases hentry
    next hk =>
    obtain ⟨summary, hsummary, rfl⟩ := Option.map_eq_some_iff.mp hentry
    exact ⟨e, hin, hid, not_not.mp hk, summary, hsummary, rfl⟩
  · rintro ⟨e, he, hid, hk, summary, hsummary, rfl⟩
    refine ⟨e.id, hid, ?_⟩
    rw [(h.byId_eq_some hs).mpr ⟨he, rfl⟩]
    simp [hk, hsummary]

theorem Verified.evidenceOf {x : Record} {d : SelectionData} (hform : P.DecisionForm rules L x d) :
    P.EvidenceOf L (P.context rules L s) x d ((P.context rules L s).selectionEvidence P x) := by
  constructor
  · intro e he hk hid
    obtain ⟨c, criterion, outcome, hjudgment, hin⟩ := hform.judged e he hk hid
    exact ⟨c, criterion, outcome, hjudgment, hin, (h.mem_selectionEvidence hs).mpr
      ⟨e, mem_of_mem_accepted he, hid, hk, _, hjudgment.summary, rfl⟩⟩
  · intro entry hentry
    obtain ⟨e, he, hid, hk, ⟨subject, criterion, outcome⟩, hsummary, rfl⟩ :=
      (h.mem_selectionEvidence hs).mp hentry
    refine ⟨e, he, hk, hid, rfl, fun hacc => ?_⟩
    obtain ⟨c, hjudgment, -⟩ := h.judgment hs hacc hk hid hsummary
    exact ⟨c, hjudgment⟩
  · -- an entry has the id of the ref it was read from
    apply sublist_map_filterMap
    intro id hid entry hentry
    split at hentry
    · cases hentry
    next e he =>
    split at hentry
    · cases hentry
    obtain ⟨summary, -, rfl⟩ := Option.map_eq_some_iff.mp hentry
    obtain ⟨-, rfl⟩ := (h.byId_eq_some hs).mp he
    rfl

/-! ## A line, and an objective -/

/-- The anchors along a line of accepted records, with their evidence. -/
theorem Verified.anchorEvidence_eq {line : List DescentStep} {ancestors : List Record}
    (hline : line.map DescentStep.node = ancestors.map ((P.context rules L s).node P))
    (hacc : ∀ y ∈ ancestors, y ∈ P.accepted L) :
    (P.context rules L s).anchorEvidence P line = .ok
      ((ancestors.filter fun y => y.kind = .selection).map ((P.context rules L s).decision P)) := by
  induction line generalizing ancestors with
  | nil =>
    obtain rfl := List.map_eq_nil_iff.mp hline.symm
    rfl
  | cons step line ih =>
    cases ancestors with
    | nil => cases hline
    | cons y ancestors =>
      rw [List.map_cons, List.map_cons, List.cons.injEq] at hline
      obtain ⟨hnode, hline⟩ := hline
      have ih := ih hline fun z hz => hacc z (List.mem_cons_of_mem _ hz)
      have hname : step.node.kind = "Selection" ↔ y.kind = .selection := by
        rw [hnode]
        exact ⟨fun heq => UnitEnum.name_inj (α := Kind) heq, fun heq => congrArg UnitEnum.name heq⟩
      have hget : (P.context rules L s).get (parseHex step.node.id) = .ok y := by
        rw [hnode, (h.get_eq_ok hs)]
        exact ⟨mem_of_mem_accepted (hacc y List.mem_cons_self), (parseHex_hexEncode y.id).symm⟩
      unfold Queries.anchorEvidence
      by_cases hk : y.kind = .selection
      · rw [if_pos (hname.mpr hk), hget, ih, List.filter_cons_of_pos (by simpa using hk), hnode]
        rfl
      · rw [if_neg (mt hname.mp hk), ih, List.filter_cons_of_neg (by simpa using hk)]

omit hs in
/-- `selected` lists the decisions for the objective. -/
theorem Verified.selected_eq (objective : String) :
    ((P.context rules L s).selected P objective).selections =
      (((P.accepted L).filter fun x => x.kind = .selection).filter (P.decides objective)).map
        ((P.context rules L s).selectedEntry P) := by
  rw [← h.filter_isAccepted (by decide), ← filterMap_ite]
  apply List.filterMap_congr
  intro x _
  cases hd : P.decode SelectionData x.data with
  | none => simp [Platform.decides, hd]
  | some d =>
    by_cases hobjective : d.objective = objective
    · cases hout : d.outcome with
      | none => simp [Platform.decides, hd, hobjective, hout]
      | selected candidates =>
        simp [Platform.decides, Queries.selectedEntry, Platform.winnersOf, hd, hobjective, hout,
          SelectionOutcome.winners]
    · simp [Platform.decides, hd, hobjective]

/-- Nothing that a decision chose is missing. -/
theorem Verified.known_offered {x : Record} {ids : List RecordId} (hids : ∀ id ∈ ids, ∃ c, P.Offered L x id c) :
    ((P.context rules L s).known ids).map Record.id = ids ∧
      ∀ c ∈ (P.context rules L s).known ids, P.Offered L x c.id c := by
  induction ids with
  | nil => exact ⟨rfl, fun c hc => absurd hc List.not_mem_nil⟩
  | cons id ids ih =>
    obtain ⟨hmap, hall⟩ := ih fun id' hid' => hids id' (List.mem_cons_of_mem _ hid')
    obtain ⟨c, hc⟩ := hids id List.mem_cons_self
    have hknown : (P.context rules L s).known (id :: ids) = c :: (P.context rules L s).known ids := by
      unfold Queries.known
      rw [List.filterMap_cons_some ((h.byId_eq_some hs).mpr ⟨mem_of_mem_accepted hc.accepted, hc.id⟩)]
    rw [hknown]
    constructor
    · rw [List.map_cons, hmap, hc.id]
    · intro c' hc'
      rcases List.mem_cons.mp hc' with rfl | hc'
      · rw [hc.id]
        exact hc
      · exact hall c' hc'

end Reports

end Bellbook
