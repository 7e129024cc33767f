import Bellbook.Verify.Run

/-!
# The state of a log

* `buildStateUnchecked` rebuilds, from the stored verdicts alone, the state a replay of the log ends
  with (`Replays.build`). A later verdict can replace no earlier one, because a run judges every
  subject once.
* `accepted` lists the accepted subjects of a log in log order, and `acceptedRecords` is the set of
  their ids (`Replays.mem_acceptedRecords`).
-/

namespace Bellbook

open Std

namespace Platform

variable (P : Platform)

/-- Whether the stored verdict is Accept. -/
def storedAccept (v : Record) : Bool :=
  (P.decode VerdictData v.data).any fun d => d.result = .accept

/-- The accepted subjects of a log in pairs, in log order. -/
def accepted : List Record → List Record
  | r :: v :: rest => if P.storedAccept v then r :: accepted rest else accepted rest
  | _ => []

end Platform

variable {P : Platform} {rules : VerifierRules}

/-! ## Rebuilding the state -/

/-- The fold does not look at `applied_up_to`. -/
theorem foldKind_appliedUpTo (s : State) (r : Record) (t : Time) :
    P.foldKind { s with appliedUpTo := t } r =
      (P.foldKind s r).map fun s => { s with appliedUpTo := t } := by
  unfold Platform.foldKind
  cases r.kind
  case request => rfl
  case verdict => rfl
  case candidate => rfl
  case evaluation => rfl
  case action =>
    cases P.decode ActionData r.data with
    | none => rfl
    | some data =>
      simp only [Option.bind_eq_bind, Option.bind_some]
      cases P.actionHash r.author.id data <;> rfl
  case result => cases P.decode ResultData r.data <;> rfl
  case refusal =>
    cases P.decode RefusalData r.data with
    | none => rfl
    | some data =>
      simp only [Option.bind_eq_bind, Option.bind_some, State.foldRefusal]
      cases data.targetKind <;> rfl
  case capability => cases P.decode CapabilityData r.data <;> rfl
  case approval => cases P.decode ApprovalData r.data <;> rfl
  case summary =>
    cases P.decode SummaryData r.data with
    | none => rfl
    | some data =>
      simp only [Option.bind_eq_bind, Option.bind_some]
      cases P.summaryKey data <;> rfl
  case usage => cases P.decode UsageData r.data <;> rfl
  case plan => cases P.decode PlanData r.data <;> rfl
  case retraction => cases P.decode RetractionData r.data <;> rfl
  case response =>
    cases P.decode ResponseData r.data with
    | none => rfl
    | some data =>
      simp only [Option.bind_eq_bind, Option.bind_some, State.foldResponse]
      cases data.closesRequest <;> rfl
  case requirement =>
    cases P.decode RequirementData r.data with
    | none => rfl
    | some data =>
      simp only [Option.bind_eq_bind, Option.bind_some, State.foldRequirement]
      cases r.firstCause <;> rfl
  case selection =>
    cases P.decode SelectionData r.data with
    | none => rfl
    | some data =>
      simp only [Option.bind_eq_bind, Option.bind_some]
      cases P.selectionApprovalSubjectHash r.author.id (findReplaceRef r.refs) data <;> rfl

theorem applyRecord_appliedUpTo (s : State) (r : Record) (d : VerdictData) (t : Time) :
    P.applyRecord { s with appliedUpTo := t } r d =
      (P.applyRecord s r d).map fun s => { s with appliedUpTo := t } := by
  unfold Platform.applyRecord
  cases d.result with
  | accept => exact foldKind_appliedUpTo (s.accept r) r t
  | reject => rfl

theorem foldlM_congr {α σ : Type} {f g : σ → α → Option σ} {l : List α}
    (h : ∀ s, ∀ a ∈ l, f s a = g s a) (s : σ) : l.foldlM f s = l.foldlM g s := by
  induction l generalizing s with
  | nil => rfl
  | cons a l ih =>
    rw [List.foldlM_cons, List.foldlM_cons, h s a List.mem_cons_self]
    congr 1
    funext s'
    exact ih (fun s b hb => h s b (List.mem_cons_of_mem _ hb)) s'

/-- Both passes of the rebuild, over one more pair whose subject has an id of its own. -/
theorem passes_snoc {L : List Record} {m : IdMap VerdictData} {t u : State} {r v : Record}
    {d : VerdictData} (hm : P.verdictMap L = some m)
    (ht : L.foldlM (P.buildStep m) State.empty = some t) (hr : r.kind ≠ .verdict)
    (hv : v.kind = .verdict) (hcause : v.firstCause = some r.id)
    (hd : P.decode VerdictData v.data = some d)
    (hfresh : ∀ x ∈ L, x.kind ≠ .verdict → x.id ≠ r.id) (hu : P.applyRecord t r d = some u) :
    P.verdictMap (L ++ [r, v]) = some (m.insert r.id d) ∧
      (L ++ [r, v]).foldlM (P.buildStep (m.insert r.id d)) State.empty = some u := by
  constructor
  · unfold Platform.verdictMap at hm ⊢
    rw [List.foldlM_append, hm]
    simp [Platform.fileVerdict, hr, hv, hcause, hd]
  · -- the new entry is under an id no earlier subject has
    have hold : L.foldlM (P.buildStep (m.insert r.id d)) State.empty = some t := by
      rw [← ht]
      refine foldlM_congr (fun s x hx => ?_) _
      unfold Platform.buildStep
      by_cases hk : x.kind = .verdict
      · rw [if_pos hk, if_pos hk]
      · have hne := hfresh x hx hk
        rw [if_neg hk, if_neg hk, ExtTreeMap.getElem?_insert, if_neg (by simpa using hne.symm)]
    rw [List.foldlM_append, hold]
    simp [Platform.buildStep, hr, hv, hu]

theorem PairStep.firstCause {L : List Record} {s s' : State} {r v : Record}
    (h : PairStep P rules L s r v s') : v.firstCause = some r.id := by
  simp [Record.firstCause, h.refs]

/-- Both passes of the rebuild, over the records of a run. -/
theorem Replays.passes {L : List Record} {s : State} (h : Replays P rules L s) :
    ∃ m t, P.verdictMap L = some m ∧ L.foldlM (P.buildStep m) State.empty = some t ∧
      { t with appliedUpTo := lastTime L } = s := by
  induction h with
  | nil => exact ⟨∅, State.empty, rfl, rfl, rfl⟩
  | @snoc L s s' r v hrun hstep ih =>
    obtain ⟨m, t, hm, ht, hs⟩ := ih
    obtain ⟨u, hu, rfl⟩ := Option.map_eq_some_iff.mp hstep.folded
    have hlast : lastTime (L ++ [r, v]) = v.time := by simp [lastTime]
    subst hs
    rw [applyRecord_appliedUpTo] at hu
    obtain ⟨w, hw, rfl⟩ := Option.map_eq_some_iff.mp hu
    obtain ⟨hmap, hfold⟩ := passes_snoc hm ht hstep.subject hstep.verdict hstep.firstCause hstep.judged
      (fun x hx hk => hrun.fresh hstep hx hk) hw
    exact ⟨_, w, hmap, hfold, by rw [hlast]⟩

/-- **The unchecked rebuild is the state of the run.** -/
theorem Replays.build {L : List Record} {s : State} (h : Replays P rules L s) :
    P.buildStateUnchecked L = some s := by
  obtain ⟨m, t, hm, ht, hs⟩ := h.passes
  unfold Platform.buildStateUnchecked
  rw [hm, Option.bind_eq_bind, Option.bind_some, ht]
  exact congrArg some hs

/-! ## Accepted records -/

theorem accepted_append {L : List Record} {k : Nat} (hL : L.length = 2 * k) (M : List Record) :
    P.accepted (L ++ M) = P.accepted L ++ P.accepted M := by
  induction k generalizing L with
  | zero =>
    obtain rfl := List.length_eq_zero_iff.mp hL
    rfl
  | succ k ih =>
    match L, hL with
    | r :: v :: L, hL =>
      have hlen : L.length = 2 * k := by
        simp only [List.length_cons] at hL
        omega
      simp only [List.cons_append, Platform.accepted, ih hlen]
      split <;> rfl

/-- The accepted records sit at even positions, before a verdict that accepts them. -/
theorem mem_accepted_iff {L : List Record} {a : Record} :
    a ∈ P.accepted L ↔ ∃ (k : Nat) (h : 2 * k + 1 < L.length),
      getElem L (2 * k) (two_mul_lt h) = a ∧ P.storedAccept L[2 * k + 1] = true := by
  fun_induction P.accepted L with
  | case1 r v rest hv ih =>
    rw [List.mem_cons, ih]
    constructor
    · rintro (rfl | ⟨k, h, ha, hacc⟩)
      · exact ⟨0, by simp, rfl, hv⟩
      · exact ⟨k + 1, by simp; omega, ha, hacc⟩
    · rintro ⟨k, h, ha, hacc⟩
      cases k with
      | zero => exact .inl ha.symm
      | succ k => exact .inr ⟨k, by simp at h; omega, ha, hacc⟩
  | case2 r v rest hv ih =>
    rw [ih]
    constructor
    · rintro ⟨k, h, ha, hacc⟩
      exact ⟨k + 1, by simp; omega, ha, hacc⟩
    · rintro ⟨k, h, ha, hacc⟩
      cases k with
      | zero => exact absurd hacc hv
      | succ k => exact ⟨k, by simp at h; omega, ha, hacc⟩
  | case3 L hL =>
    simp only [List.not_mem_nil, false_iff, not_exists]
    rintro k h
    match L, hL with
    | [], _ => simp at h
    | [r], _ => simp at h
    | r :: v :: rest, hL => exact absurd rfl (hL r v rest)

theorem mem_of_mem_accepted {L : List Record} {a : Record} (h : a ∈ P.accepted L) : a ∈ L := by
  obtain ⟨k, hk, rfl, -⟩ := mem_accepted_iff.mp h
  exact List.getElem_mem _

theorem accepted_append_of_even {L M : List Record} {s : State} (h : Replays P rules L s) :
    P.accepted (L ++ M) = P.accepted L ++ P.accepted M := by
  obtain ⟨k, hk⟩ := h.even
  exact accepted_append hk M

/-- What a run has accepted stays accepted. -/
theorem accepted_mono {pre L : List Record} {s : State} (h : Replays P rules pre s)
    (hpre : pre <+: L) : P.accepted pre ⊆ P.accepted L := by
  obtain ⟨rest, rfl⟩ := hpre
  rw [accepted_append_of_even h]
  exact List.subset_append_left _ _

/-- A round that rejects its subject, and one that accepts it, with what each leaves behind. -/
theorem Replays.step_cases {L : List Record} {s s' : State} {r v : Record}
    (h : Replays P rules L s) (hstep : PairStep P rules L s r v s') :
    (P.accepted (L ++ [r, v]) = P.accepted L ∧
        (∃ reason, P.checkRecord rules (priorView (L ++ [r])) s r = some reason) ∧
        s' = { s with appliedUpTo := v.time }) ∨
      (P.accepted (L ++ [r, v]) = P.accepted L ++ [r] ∧
        P.checkRecord rules (priorView (L ++ [r])) s r = none ∧
        ∃ t, Folded P (s.accept r) r t ∧ s' = { t with appliedUpTo := v.time }) := by
  obtain ⟨k, hk⟩ := h.even
  rw [accepted_append hk]
  rcases hstep.cases with ⟨⟨reason, hc⟩, hs⟩ | ⟨hc, ht⟩
  · left
    refine ⟨?_, ⟨reason, hc⟩, hs⟩
    simp [Platform.accepted, Platform.storedAccept, hstep.judged, hc, verdictOf]
  · right
    refine ⟨?_, hc, ht⟩
    simp [Platform.accepted, Platform.storedAccept, hstep.judged, hc, verdictOf]

theorem Folded.acceptedRecords {s s' : State} {r : Record} (h : Folded P s r s') :
    s'.acceptedRecords = s.acceptedRecords := by
  cases h with
  | @refusal _ data => obtain ⟨_, _, _, _, heq⟩ := s.foldRefusal_eq data; rw [heq]
  | @response _ data => obtain ⟨_, _, _, heq⟩ := s.foldResponse_eq data; rw [heq]
  | @requirement _ data => obtain ⟨_, _, heq⟩ := s.foldRequirement_eq r data; rw [heq]
  | _ => rfl

namespace Replays

variable {L : List Record} {s : State}

/-- An accepted record is a subject of the log. -/
theorem mem_of_mem_accepted (h : Replays P rules L s) {a : Record} (ha : a ∈ P.accepted L) :
    a ∈ L ∧ a.kind ≠ .verdict := by
  induction h with
  | nil => simp [Platform.accepted] at ha
  | snoc hrun hstep ih =>
    rcases hrun.step_cases hstep with ⟨hacc, -⟩ | ⟨hacc, -⟩
    · rw [hacc] at ha
      exact ⟨List.mem_append_left _ (ih ha).1, (ih ha).2⟩
    · rw [hacc, List.mem_append, List.mem_singleton] at ha
      rcases ha with ha | rfl
      · exact ⟨List.mem_append_left _ (ih ha).1, (ih ha).2⟩
      · exact ⟨by simp, hstep.subject⟩

theorem mem_acceptedRecords (h : Replays P rules L s) {id : RecordId} :
    id ∈ s.acceptedRecords ↔ ∃ a ∈ P.accepted L, a.id = id := by
  induction h with
  | nil => simp [State.empty, Platform.accepted]
  | snoc hrun hstep ih =>
    rcases hrun.step_cases hstep with ⟨hacc, -, rfl⟩ | ⟨hacc, -, t, hf, rfl⟩
    · rw [hacc, ← ih]
    · rw [hacc]
      simp only [hf.acceptedRecords, State.accept, Worklist.mem_insert_iff, ih, List.mem_append,
        List.mem_singleton, or_and_right, exists_or, exists_eq_left, eq_comm (a := id)]
      exact or_comm

/-- The accepted records of a run have distinct ids. -/
theorem nodup_accepted_ids (h : Replays P rules L s) : ((P.accepted L).map Record.id).Nodup := by
  induction h with
  | nil => simp [Platform.accepted]
  | snoc hrun hstep ih =>
    rcases hrun.step_cases hstep with ⟨hacc, -⟩ | ⟨hacc, -⟩
    · rwa [hacc]
    · rw [hacc, List.map_append, List.nodup_append]
      refine ⟨ih, by simp, fun id hid id' hid' => ?_⟩
      obtain ⟨a, ha, rfl⟩ := List.mem_map.mp hid
      obtain rfl : id' = _ := by simpa using hid'
      obtain ⟨hmem, hk⟩ := hrun.mem_of_mem_accepted ha
      exact hrun.fresh hstep hmem hk

theorem eq_of_accepted_id (h : Replays P rules L s) {a b : Record} (ha : a ∈ P.accepted L)
    (hb : b ∈ P.accepted L) (hid : a.id = b.id) : a = b :=
  List.inj_on_of_nodup_map h.nodup_accepted_ids ha hb hid

end Replays

/-- The round that accepted a record. -/
theorem Verified.accepted_round {L : List Record} {s : State} (h : Verified P rules L s) {i : Nat}
    (hi : i < L.length) (ha : L[i] ∈ P.accepted L) :
    ∃ (k : Nat) (hk : 2 * k + 1 < L.length) (t u : State), i = 2 * k ∧
      Verified P rules (L.take (2 * k)) t ∧
      P.checkRecord rules (priorView (L.take (2 * k) ++ [L[2 * k]])) t L[2 * k] = none ∧
      Folded P (t.accept L[2 * k]) L[2 * k] u ∧
      Verified P rules (L.take (2 * (k + 1))) { u with appliedUpTo := L[2 * k + 1].time } ∧
      P.accepted (L.take (2 * (k + 1))) = P.accepted (L.take (2 * k)) ++ [L[2 * k]] := by
  obtain ⟨k, hk, heq, hacc⟩ := mem_accepted_iff.mp ha
  obtain rfl : 2 * k = i := by
    have := congrArg (fun r => r.time.toNat) heq
    simp only [h.time_eq] at this
    omega
  obtain ⟨t, t', ht, hstep, ht'⟩ := h.pair_at hk
  rw [← take_two_more hk] at ht'
  rcases ht.run.step_cases hstep with ⟨-, ⟨reason, hc⟩, -⟩ | ⟨happ, hc, u, hu, rfl⟩
  · simp only [Platform.storedAccept, hstep.judged, hc, verdictOf] at hacc
    cases hacc
  · rw [← take_two_more hk] at happ
    exact ⟨k, hk, t, u, rfl, ht, hc, hu, ht', happ⟩

/-- Acceptance of an earlier record is known at any later point. -/
theorem Verified.accepted_take {L : List Record} {s t : State} {i : Nat} (h : Verified P rules L s)
    (ht : Verified P rules (L.take i) t) {x : Record} (hx : x ∈ P.accepted L)
    (hxi : x ∈ L.take i) : x ∈ P.accepted (L.take i) := by
  have hsplit := accepted_append_of_even (M := L.drop i) ht.run
  rw [List.take_append_drop] at hsplit
  rw [hsplit, List.mem_append] at hx
  refine hx.resolve_right fun hdrop => ?_
  obtain ⟨j, hj, rfl⟩ := List.mem_iff_getElem.mp hxi
  obtain ⟨m, hm, heq⟩ := List.mem_iff_getElem.mp (mem_of_mem_accepted hdrop)
  rw [List.getElem_drop, List.getElem_take] at heq
  have := congrArg (fun r => r.time.toNat) heq
  simp only [h.time_eq] at this
  simp at hj
  omega

/-- A record accepted before position `i` is among the accepted records of that prefix. -/
theorem Verified.accepted_before {L : List Record} {s t : State} {i j : Nat}
    (h : Verified P rules L s) (ht : Verified P rules (L.take i) t) (hji : j < i)
    (hi : i ≤ L.length) (hj : L[j] ∈ P.accepted L) : L[j] ∈ P.accepted (L.take i) := by
  apply h.accepted_take ht hj
  rw [List.mem_take_iff_getElem]
  exact ⟨j, by omega, rfl⟩

end Bellbook
