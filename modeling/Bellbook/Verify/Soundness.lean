import Mathlib.Algebra.Order.BigOperators.Group.List
import Mathlib.Algebra.Order.Group.Nat
import Bellbook.Lib.PostOrder
import Bellbook.Verify.Lineage

/-!
# Standing is the specified recursion

The traversal of `derive_standing` is the generic evaluation of `PostOrder` (`settle_eq_run`). The
lineage of an accepted log is acyclic, so the traversal ends and computes the recursion of SPEC 7.2,
for every order in which the hash maps are iterated (`standing_exact`).
-/

namespace Bellbook

open Std

variable {P : Platform} {rules : VerifierRules} {L : List Record} {s : State}

/-! ## The traversal -/

/-- `CandInfo.standing` with the values of the dependencies as a function, and its default for what
is missing or malformed as a parameter. -/
def CandInfo.standingOf (info : CandInfo) (candidates : IdMap CandInfo)
    (anchorSound : RecordId → RecordId → Bool) (fallback : Bool) (value : RecordId → Option Bool) :
    Bool :=
  match info.basis with
  | .root => true
  | .continuation =>
    match info.causes, info.parent with
    | anchor :: _, some parent => anchorSound anchor parent && (value parent).getD fallback
    | _, _ => fallback
  | .derivation => (info.deps candidates).all fun d => (value d).getD fallback

/-- The standing of candidates as an evaluation in post-order. -/
def standingProblem (s : State) (candidates : IdMap CandInfo)
    (anchorSound : RecordId → RecordId → Bool) (fallback : Bool) :
    PostOrder.Problem RecordId Bool where
  node id := id ∈ candidates
  base id := if id ∈ s.retractedRecords then some false else none
  deps id := (candidates[id]?.map fun info => info.deps candidates).getD []
  combine id value :=
    (candidates[id]?.map fun info => info.standingOf candidates anchorSound fallback value).getD fallback

/-- The traversal of `derive_standing` is the generic one. -/
theorem settle_eq_run {candidates : IdMap CandInfo} {anchorSound : RecordId → RecordId → Bool}
    (fuel : Nat) (sound : IdMap Bool) (stack : List (RecordId × Bool)) :
    settle s candidates anchorSound fuel sound stack =
      PostOrder.run (standingProblem s candidates anchorSound false) fuel sound stack := by
  induction fuel generalizing sound stack with
  | zero => rfl
  | succ fuel ih =>
    match stack with
    | [] => rfl
    | (id, done) :: stack =>
      rw [settle, PostOrder.run, PostOrder.step]
      by_cases hknown : id ∈ sound
      · simp only [hknown, if_true, true_or]
        exact ih _ _
      rcases Option.eq_none_or_eq_some candidates[id]? with hinfo | ⟨info, hinfo⟩
      · have hnode : id ∉ candidates := by simp [ExtTreeMap.mem_iff_isSome_getElem?, hinfo]
        have hout : (standingProblem s candidates anchorSound false).node id = false := by
          simp [standingProblem, hnode]
        simp only [hknown, if_false, hinfo, hout, or_true, if_true]
        exact ih _ _
      · have hnode : id ∈ candidates := by simp [ExtTreeMap.mem_iff_isSome_getElem?, hinfo]
        have hin : (standingProblem s candidates anchorSound false).node id = true := by
          simp [standingProblem, hnode]
        have htodo : PostOrder.todo (standingProblem s candidates anchorSound false) sound id =
            (info.deps candidates).filter fun d => d ∉ sound && d ∈ candidates := by
          simp only [PostOrder.todo, standingProblem, hinfo, Option.map_some, Option.getD_some]
        have hcombine : (standingProblem s candidates anchorSound false).combine id (fun d => sound[d]?) =
            info.standing candidates anchorSound sound := by
          simp only [standingProblem, hinfo, Option.map_some, Option.getD_some]
          rfl
        simp only [hknown, if_false, hinfo, hin, Bool.true_eq_false, or_self]
        by_cases hret : id ∈ s.retractedRecords
        · have hbase : (standingProblem s candidates anchorSound false).base id = some false := if_pos hret
          simp only [hret, if_true, hbase]
          exact ih _ _
        · have hbase : (standingProblem s candidates anchorSound false).base id = none := if_neg hret
          simp only [hret, if_false, hbase, htodo, hcombine]
          split
          · exact ih _ _
          · exact ih _ _

theorem standingProblem_local {candidates : IdMap CandInfo}
    {anchorSound : RecordId → RecordId → Bool} {fallback : Bool} :
    PostOrder.Local (standingProblem s candidates anchorSound fallback) := by
  intro id f g _ hfg
  simp only [standingProblem] at hfg ⊢
  cases hinfo : candidates[id]? with
  | none => rfl
  | some info =>
    simp only [hinfo, Option.map_some, Option.getD_some] at hfg ⊢
    unfold CandInfo.standingOf
    cases hb : info.basis with
    | root => rfl
    | continuation =>
      cases hp : info.parent with
      | none => cases info.causes <;> rfl
      | some parent =>
        have hval := hfg parent (by simp [CandInfo.deps, hb, hp])
        cases info.causes with
        | nil => rfl
        | cons anchor causes => simp only [hval]
    | derivation =>
      rw [Bool.eq_iff_iff, List.all_eq_true, List.all_eq_true]
      apply forall₂_congr
      intro d hd
      rw [hfg d hd]

/-- The anchor test of the derivation. -/
def Platform.anchorTest (P : Platform) (l : Lineage) (s : State) : RecordId → RecordId → Bool :=
  anchorSound s l.selections (P.replacers l s)

/-- The memo of the derivation: a traversal from every candidate. -/
def Platform.soundMap (P : Platform) (fuel : Nat) (fallback : Bool) (l : Lineage) (s : State)
    (test : RecordId → RecordId → Bool) : IdMap Bool :=
  (P.hashOrder _ l.candidates.keys).foldl (fun sound start =>
    if start ∈ sound then sound
    else PostOrder.run (standingProblem s l.candidates test fallback) fuel sound [(start, false)]) ∅

namespace ReplayEnd

variable {E : ReplayEnd} {c : Record} {d : CandidateData}

theorem SoundCandidate.proposes (h : E.SoundCandidate P c) :
    c.id ∉ E.retracted ∧ ∃ d, E.Proposes P c d := by
  cases h with
  | root hc hr | continuation hc hr | derivation hc hr => exact ⟨hr, _, hc⟩

theorem Proposes.unique {d' : CandidateData} (h : E.Proposes P c d) (h' : E.Proposes P c d') :
    d = d' := by
  have : some d = some d' := h.2.2 ▸ h'.2.2
  simpa using this

end ReplayEnd

theorem mem_idSetOf {ids : List RecordId} {id : RecordId} : id ∈ idSetOf ids ↔ id ∈ ids := by
  rw [idSetOf, mem_foldl_insert]
  simp

theorem isEmpty_false_iff {set : IdSet} : set.isEmpty = false ↔ ∃ id, id ∈ set := by
  constructor
  · intro hne
    by_contra hnone
    apply ExtTreeSet.isEmpty_eq_false_iff.mp hne
    apply ExtTreeSet.ext_mem
    intro id
    simp only [ExtTreeSet.not_mem_empty, iff_false]
    exact fun hid => hnone ⟨id, hid⟩
  · rintro ⟨id, hid⟩
    apply ExtTreeSet.isEmpty_eq_false_iff.mpr
    rintro rfl
    simp at hid

theorem isUnsound_iff {id : RecordId} : s.isUnsound id = true ↔
    id ∈ (P.replayEnd L s).retracted ∨ id ∈ (P.replayEnd L s).tainted := by
  simp [State.isUnsound, Platform.replayEnd]

section Candidates

variable (h : Verified P rules L s) (hs : P.HashSound L)
include h hs

/-- The anchor test decides whether an anchor is sound. -/
theorem Verified.anchorTest_iff (horder : P.HashOrderPermutes) {anchor : Record}
    (ha : (P.replayEnd L s).Selects anchor) {parent : RecordId} :
    P.anchorTest (P.lineage L s) s anchor.id parent = true ↔
      (P.replayEnd L s).AnchorSound P anchor parent := by
  have hsound : s.isUnsound anchor.id = false ↔ (P.replayEnd L s).SoundSelection anchor := by
    rw [ReplayEnd.SoundSelection, and_iff_right ha, ← isUnsound_iff, Bool.not_eq_true]
  unfold Platform.anchorTest anchorSound ReplayEnd.AnchorSound
  rw [Bool.or_eq_true, Bool.not_eq_true', hsound]
  apply or_congr_right
  rw [List.any_eq_true]
  simp only [ExtTreeSet.mem_toList, h.mem_replacers hs horder ha, Option.any_eq_true,
    decide_eq_true_eq]
  constructor
  · rintro ⟨id, ⟨x, hx, rfl⟩, info, hinfo, hsel⟩
    obtain ⟨x', d, hx', hd, hid, rfl⟩ := (h.lineage_selections hs).mp hinfo
    obtain rfl := h.run.eq_of_accepted_id hx'.1 hx.1.1.1 hid
    exact ⟨x', hx, d, hd, mem_idSetOf.mp hsel⟩
  · rintro ⟨x, hx, d, hd, hsel⟩
    refine ⟨x.id, ⟨x, hx, rfl⟩, _, (h.lineage_selections hs).mpr ⟨x, d, hx.1.1, hd, rfl, rfl⟩, ?_⟩
    exact mem_idSetOf.mpr hsel

theorem Verified.mem_candidates {c : Record} (hc : c ∈ P.accepted L) (hk : c.kind = .candidate) :
    c.id ∈ (P.lineage L s).candidates := by
  obtain ⟨d, hform⟩ := h.candidate_form hs hc hk
  rw [ExtTreeMap.mem_iff_isSome_getElem?,
    (h.lineage_candidates hs).mpr ⟨c, d, ⟨hc, hk, hform.payload⟩, rfl, rfl⟩]
  rfl

omit hs in
/-- **The recursion of a Continuation.** -/
theorem Verified.continuation_iff {c : Record} {d : CandidateData}
    (hc : (P.replayEnd L s).Proposes P c d) (hr : c.id ∉ s.retractedRecords)
    (hb : d.basis = .continuation) {anchor parent : Record} {dp : CandidateData}
    (ha : (P.replayEnd L s).Selects anchor) (hcause : refTargets .cause c.refs = [anchor.id])
    (hp : (P.replayEnd L s).Proposes P parent dp) (hparent : d.parent = some parent.id) :
    (P.replayEnd L s).SoundCandidate P c ↔
      (P.replayEnd L s).AnchorSound P anchor parent.id ∧
        (P.replayEnd L s).SoundCandidate P parent := by
  constructor
  · intro hsound
    cases hsound with
    | root hc' _ hb' => simp [hc.unique hc', hb'] at hb
    | derivation hc' _ hb' => simp [hc.unique hc', hb'] at hb
    | continuation hc' _ _ ha' hcause' hp' hparent' hanchor hsound =>
      obtain rfl := hc.unique hc'
      rw [hcause] at hcause'
      rw [hparent] at hparent'
      simp only [List.cons.injEq, and_true] at hcause'
      simp only [Option.some.injEq] at hparent'
      obtain rfl := h.run.eq_of_accepted_id ha.1 ha'.1 hcause'
      obtain rfl := h.run.eq_of_accepted_id hp.1 hp'.1 hparent'
      exact ⟨hanchor, hsound⟩
  · rintro ⟨hanchor, hsound⟩
    exact .continuation hc hr hb ha hcause hp hparent hanchor hsound

omit h hs in
/-- The recursion of a Derivation. -/
theorem derivation_iff {c : Record} {d : CandidateData}
    (hc : (P.replayEnd L s).Proposes P c d) (hr : c.id ∉ s.retractedRecords)
    (hb : d.basis = .derivation) :
    (P.replayEnd L s).SoundCandidate P c ↔ ∀ t dt, (P.replayEnd L s).Proposes P t dt →
      t.id ∈ refTargets .cause c.refs → (P.replayEnd L s).SoundCandidate P t := by
  constructor
  · intro hsound
    cases hsound with
    | root hc' _ hb' => simp [hc.unique hc', hb'] at hb
    | continuation hc' _ hb' => simp [hc.unique hc', hb'] at hb
    | derivation _ _ _ hall => exact hall
  · exact fun hall => .derivation hc hr hb hall

open Classical in
/-- The values the traversal computes. -/
noncomputable def Platform.soundness (P : Platform) (L : List Record) (s : State) (id : RecordId) :
    Bool :=
  decide (∃ c, (P.replayEnd L s).SoundCandidate P c ∧ c.id = id)

omit hs in
theorem Verified.soundness_iff {c : Record} (hc : c ∈ P.accepted L) :
    P.soundness L s c.id = true ↔ (P.replayEnd L s).SoundCandidate P c := by
  unfold Platform.soundness
  rw [@decide_eq_true_eq]
  constructor
  · rintro ⟨c', hc', hid⟩
    obtain ⟨-, d, hd⟩ := hc'.proposes
    rwa [h.run.eq_of_accepted_id hd.1 hc hid] at hc'
  · exact fun hsound => ⟨c, hsound, rfl⟩

theorem Verified.candidate_of_node {test : RecordId → RecordId → Bool} {fallback : Bool}
    {id : RecordId}
    (hnode : (standingProblem s (P.lineage L s).candidates test fallback).node id = true) :
    ∃ c d, (P.replayEnd L s).Proposes P c d ∧ c.id = id ∧ CandidateForm P L c d ∧
      (P.lineage L s).candidates[id]? = some ⟨d.basis, d.parent, refTargets .cause c.refs⟩ := by
  have hmem : id ∈ (P.lineage L s).candidates := by simpa [standingProblem] using hnode
  have hsome := ExtTreeMap.getElem?_eq_some_getElem hmem
  obtain ⟨c, d, hc, rfl, hinfo⟩ := (h.lineage_candidates hs).mp hsome
  obtain ⟨d', hform⟩ := h.candidate_form hs hc.1 hc.2.1
  have hd : d' = d := by simpa [hc.2.2] using hform.payload.symm
  rw [hinfo] at hsome
  exact ⟨c, d, hc, rfl, hd ▸ hform, hsome⟩

/-- Lineage edges lead to earlier records. -/
theorem Verified.acyclic {test : RecordId → RecordId → Bool} {fallback : Bool} :
    PostOrder.Acyclic (standingProblem s (P.lineage L s).candidates test fallback) (P.rank L) := by
  intro id hnode dep hdep
  obtain ⟨c, d, hc, rfl, hform, hinfo⟩ := h.candidate_of_node hs hnode
  simp only [standingProblem, hinfo, Option.map_some, Option.getD_some, CandInfo.deps] at hdep
  rw [h.rank_eq hc.1]
  cases hb : d.basis with
  | root => simp [hb] at hdep
  | continuation =>
    obtain ⟨-, -, -, -, parent, hp, -, hparent, hlt⟩ := hform.continuation hb
    simp only [hb, hparent, Option.toList_some, List.mem_singleton] at hdep
    rw [hdep, h.rank_eq hp]
    exact hlt
  | derivation =>
    simp only [hb, List.mem_filter] at hdep
    obtain ⟨x, hx, rfl, hlt⟩ := hform.derivation hb dep hdep.1
    rw [h.rank_eq hx]
    exact hlt

/-- **The recursion is a solution of the evaluation**, whatever its default is. -/
theorem Verified.solves (horder : P.HashOrderPermutes) {fallback : Bool} :
    PostOrder.Solves (standingProblem s (P.lineage L s).candidates
      (P.anchorTest (P.lineage L s) s) fallback) (P.soundness L s) where
  base := by
    intro id b hnode hbase
    obtain ⟨c, d, hc, rfl, -, -⟩ := h.candidate_of_node hs hnode
    simp only [standingProblem] at hbase
    split at hbase
    · next hret =>
      cases hbase
      rw [Bool.eq_false_iff]
      intro hsound
      exact ((h.soundness_iff hc.1).mp hsound).proposes.1 hret
    · cases hbase
  combine := by
    intro id hnode hbase
    obtain ⟨c, d, hc, rfl, hform, hinfo⟩ := h.candidate_of_node hs hnode
    have hr : c.id ∉ s.retractedRecords := by
      intro hret
      simp [standingProblem, hret] at hbase
    rw [Bool.eq_iff_iff, h.soundness_iff hc.1]
    simp only [standingProblem, hinfo, Option.map_some, Option.getD_some, CandInfo.standingOf]
    cases hb : d.basis with
    | root =>
      simp only [iff_true]
      exact .root hc hr hb
    | continuation =>
      obtain ⟨anchor, ha, hak, hcause, parent, hp, hpk, hparent, -⟩ := hform.continuation hb
      obtain ⟨dp, hpform⟩ := h.candidate_form hs hp hpk
      rw [h.continuation_iff hc hr hb ⟨ha, hak⟩ hcause ⟨hp, hpk, hpform.payload⟩ hparent,
        ← h.anchorTest_iff hs horder ⟨ha, hak⟩, ← h.soundness_iff hp]
      simp [hcause, hparent, h.mem_candidates hs hp hpk]
    | derivation =>
      rw [derivation_iff hc hr hb, List.all_eq_true]
      constructor
      · intro hall dep hdep
        simp only [CandInfo.deps, List.mem_filter, decide_eq_true_eq] at hdep
        obtain ⟨t, dt, ht, rfl, -⟩ := (h.lineage_candidates hs).mp
          (ExtTreeMap.getElem?_eq_some_getElem hdep.2)
        simp [hdep.2, (h.soundness_iff ht.1).mpr (hall t dt ht hdep.1)]
      · intro hall t dt ht hcause
        have hmem := h.mem_candidates hs ht.1 ht.2.1
        have hval := hall t.id (by simp [CandInfo.deps, hcause, hmem])
        rw [← h.soundness_iff ht.1]
        simpa [hmem] using hval

end Candidates

/-! ## Iterations -/

theorem length_deps_le (info : CandInfo) (candidates : IdMap CandInfo) :
    (info.deps candidates).length ≤ 1 + info.causes.length := by
  unfold CandInfo.deps
  split
  · simp
  · cases info.parent <;> simp
  · have := List.length_filter_le (fun t => t ∈ candidates) info.causes
    omega

/-- The fuel of the model covers a traversal from one candidate. -/
theorem cost_le_settleFuel {candidates : IdMap CandInfo} {test : RecordId → RecordId → Bool}
    {fallback : Bool} (memo : IdMap Bool) (start : RecordId) :
    PostOrder.cost (standingProblem s candidates test fallback) candidates.keys memo
      [(start, false)] ≤ settleFuel candidates := by
  have hfilter : ((candidates.keys.filter (PostOrder.unexpanded memo [(start, false)])).map fun k =>
        1 + ((standingProblem s candidates test fallback).deps k).length).sum ≤
      (candidates.keys.map fun k =>
        1 + ((standingProblem s candidates test fallback).deps k).length).sum :=
    List.Sublist.sum_le_sum (List.filter_sublist.map _) fun _ _ => Nat.zero_le _
  have hkeys : (candidates.keys.map fun k =>
        1 + ((standingProblem s candidates test fallback).deps k).length).sum ≤
      (candidates.toList.map fun p => 3 + p.2.causes.length).sum := by
    rw [← ExtTreeMap.map_fst_toList_eq_keys, List.map_map]
    apply List.sum_le_sum
    rintro ⟨id, info⟩ hin
    have hinfo := ExtTreeMap.mem_toList_iff_getElem?_eq_some.mp hin
    have := length_deps_le info candidates
    simp only [Function.comp_apply, standingProblem, hinfo, Option.map_some, Option.getD_some]
    omega
  unfold PostOrder.cost settleFuel
  simp only [List.length_singleton]
  omega

section Memo

variable (h : Verified P rules L s) (hs : P.HashSound L) (horder : P.HashOrderPermutes)
include h hs horder

/-- The traversals from a list of candidates, on a memo with values of the recursion. -/
theorem Verified.settle_all {fuel : Nat} (fallback : Bool)
    (hfuel : settleFuel (P.lineage L s).candidates ≤ fuel) (starts : List RecordId)
    {memo : IdMap Bool}
    (hmemo : ∀ id b, memo[id]? = some b → id ∈ (P.lineage L s).candidates ∧ b = P.soundness L s id) :
    let problem :=
      standingProblem s (P.lineage L s).candidates (P.anchorTest (P.lineage L s) s) fallback
    let result := starts.foldl (fun sound start => if start ∈ sound then sound
      else PostOrder.run problem fuel sound [(start, false)]) memo
    (∀ id b, result[id]? = some b → id ∈ (P.lineage L s).candidates ∧ b = P.soundness L s id) ∧
      (∀ id ∈ memo, id ∈ result) ∧
      ∀ id ∈ starts, id ∈ (P.lineage L s).candidates → id ∈ result := by
  intro problem
  have hnode (id : RecordId) : problem.node id = true ↔ id ∈ (P.lineage L s).candidates :=
    decide_eq_true_iff
  induction starts generalizing memo with
  | nil => exact ⟨hmemo, fun id hid => hid, by simp⟩
  | cons start starts ih =>
    simp only [List.foldl_cons]
    by_cases hknown : start ∈ memo
    · rw [if_pos hknown]
      obtain ⟨hvalues, hkeep, hstarts⟩ := ih hmemo
      refine ⟨hvalues, hkeep, ?_⟩
      intro id hid hcand
      rcases List.mem_cons.mp hid with rfl | hid
      · exact hkeep _ hknown
      · exact hstarts id hid hcand
    · rw [if_neg hknown]
      have hready : PostOrder.Ready problem (P.rank L) (P.soundness L s) memo [(start, false)] := by
        refine ⟨?_, List.pairwise_singleton _ _, ⟨fun hmark => by simp at hmark, trivial⟩⟩
        intro id b hb
        obtain ⟨hcand, rfl⟩ := hmemo id b hb
        exact ⟨(hnode id).mpr hcand, rfl⟩
      have hkeys (id : RecordId) : id ∈ (P.lineage L s).candidates.keys ↔ problem.node id = true := by
        rw [ExtTreeMap.mem_keys, hnode]
      obtain ⟨hrun, hgrow, hdone⟩ := PostOrder.run_spec (h.acyclic hs) standingProblem_local
        (h.solves hs horder) hkeys hready ((cost_le_settleFuel _ _).trans hfuel)
      obtain ⟨hvalues, hkeep, hstarts⟩ := ih fun id b hb => by
        rw [← hnode]
        exact hrun id b hb
      refine ⟨hvalues, fun id hid => hkeep id (hgrow id hid), ?_⟩
      intro id hid hcand
      rcases List.mem_cons.mp hid with rfl | hid
      · exact hkeep _ (hdone _ List.mem_cons_self ((hnode _).mpr hcand))
      · exact hstarts id hid hcand

/-- **The memo of the derivation** has an entry for every accepted Candidate and no other, with the
value of the recursion. -/
theorem Verified.getElem?_soundMap {fuel : Nat} (fallback : Bool)
    (hfuel : settleFuel (P.lineage L s).candidates ≤ fuel) (id : RecordId) :
    (P.soundMap fuel fallback (P.lineage L s) s (P.anchorTest (P.lineage L s) s))[id]? =
      if id ∈ (P.lineage L s).candidates then some (P.soundness L s id) else none := by
  have hempty : ∀ id b, (∅ : IdMap Bool)[id]? = some b →
      id ∈ (P.lineage L s).candidates ∧ b = P.soundness L s id := by simp
  obtain ⟨hvalues, -, hstarts⟩ := h.settle_all hs horder fallback hfuel
    (P.hashOrder _ (P.lineage L s).candidates.keys) hempty
  split
  · next hcand =>
    have hin : id ∈ P.hashOrder _ (P.lineage L s).candidates.keys :=
      (horder _ _).mem_iff.mpr (ExtTreeMap.mem_keys.mpr hcand)
    have hsome := ExtTreeMap.getElem?_eq_some_getElem (hstarts id hin hcand)
    rw [← (hvalues id _ hsome).2]
    exact hsome
  · next hcand =>
    rcases Option.eq_none_or_eq_some (P.soundMap fuel fallback (P.lineage L s) s
      (P.anchorTest (P.lineage L s) s))[id]? with hnone | ⟨b, hsome⟩
    · exact hnone
    · exact absurd (hvalues id b hsome).1 hcand

end Memo

/-! ## The report -/

namespace ReplayEnd

variable (E : ReplayEnd)

/-- The standing section of SPEC 7.2. -/
structure Standing (P : Platform) (section_ : StandingSection) : Prop where
  unsound : ∀ id, id ∈ section_.unsound ↔ ∃ x, E.UnsoundSelection x ∧ x.id = id
  restorations : ∀ id set, section_.restorations[id]? = some set ↔
    ∃ y, E.UnsoundSelection y ∧ y.id = id ∧ (∃ x, E.Restores x y) ∧
      ∀ other, other ∈ set ↔ ∃ x, E.Restores x y ∧ x.id = other
  compromised : ∀ id, id ∈ section_.compromised ↔
    ∃ c d, E.Proposes P c d ∧ c.id = id ∧ ¬E.SoundCandidate P c

/-- The equations of the recursion. What an equation looks at is there, and is earlier. -/
structure Recursion (P : Platform) : Prop where
  retracted : ∀ c d, E.Proposes P c d → c.id ∈ E.retracted → ¬E.SoundCandidate P c
  root : ∀ c d, E.Proposes P c d → c.id ∉ E.retracted → d.basis = .root → E.SoundCandidate P c
  continuation : ∀ c d, E.Proposes P c d → c.id ∉ E.retracted → d.basis = .continuation →
    ∃ anchor parent dp, E.Selects anchor ∧ refTargets .cause c.refs = [anchor.id] ∧
      E.Proposes P parent dp ∧ d.parent = some parent.id ∧ parent.time.toNat < c.time.toNat ∧
      (E.SoundCandidate P c ↔ E.AnchorSound P anchor parent.id ∧ E.SoundCandidate P parent)
  derivation : ∀ c d, E.Proposes P c d → c.id ∉ E.retracted → d.basis = .derivation →
    (∀ t ∈ refTargets .cause c.refs, ∃ x ∈ E.accepted, x.id = t ∧ x.time.toNat < c.time.toNat) ∧
      (E.SoundCandidate P c ↔ ∀ t dt, E.Proposes P t dt → t.id ∈ refTargets .cause c.refs →
        E.SoundCandidate P t)

end ReplayEnd

namespace Platform

variable (P : Platform)

/-- The replacers, with the bound on a chain walk as a parameter. -/
def replacersWith (guard : Nat) (l : Lineage) (s : State) : IdMap IdSet :=
  (P.hashOrder _ l.selections.toList).foldl (fun replacers entry =>
    if s.isUnsound entry.1 then replacers
    else (replaceChain l.selections guard entry.2.replaceTarget).foldl
      (fun m ancestor => m.insert ancestor ((m[ancestor]?.getD ∅).insert entry.1)) replacers) ∅

/-- `derive_standing` with its defences as parameters: the hops of a chain walk, the iterations of a
traversal, and what stands for a value that is missing. -/
def deriveStandingWith (guard fuel : Nat) (fallback : Bool) (records : List Record) (s : State) :
    StandingSection :=
  let l := P.lineage records s
  let replacers := P.replacersWith guard l s
  let sound := P.soundMap fuel fallback l s (anchorSound s l.selections replacers)
  let unsound := idSetOf (l.selections.keys.filter s.isUnsound)
  { compromised := idSetOf (l.candidates.keys.filter fun id => !(sound[id]?.getD fallback))
    unsound
    restorations := unsound.toList.foldl (fun m sel =>
      match replacers[sel]? with
      | some set => if set.isEmpty then m else m.insert sel set
      | none => m) ∅ }

end Platform

theorem deriveStanding_eq_with (records : List Record) : P.deriveStanding records s =
    P.deriveStandingWith ((P.lineage records s).selections.size + 1)
      (settleFuel (P.lineage records s).candidates) false records s := by
  unfold Platform.deriveStanding Platform.deriveStandingWith Platform.soundMap
  simp only [settle_eq_run]
  rfl

/-- The entries that `restorations` keeps. -/
theorem getElem?_foldl_keep {f : RecordId → Option IdSet} {l : List RecordId} {id : RecordId}
    {set : IdSet} :
    (l.foldl (fun m sel => match f sel with
      | some set => if set.isEmpty then m else m.insert sel set
      | none => m) (∅ : IdMap IdSet))[id]? = some set ↔
      id ∈ l ∧ f id = some set ∧ set.isEmpty = false := by
  induction l using List.reverseRecOn with
  | nil => simp
  | append_singleton l sel ih =>
    rw [List.foldl_append, List.foldl_cons, List.foldl_nil, List.mem_append, List.mem_singleton]
    cases hf : f sel with
    | none =>
      simp only [ih]
      constructor
      · rintro ⟨hin, hrest⟩
        exact ⟨.inl hin, hrest⟩
      · rintro ⟨hin | rfl, hsome, hne⟩
        · exact ⟨hin, hsome, hne⟩
        · simp [hf] at hsome
    | some kept =>
      cases hempty : kept.isEmpty with
      | true =>
        simp only [hempty, if_true, ih]
        constructor
        · rintro ⟨hin, hrest⟩
          exact ⟨.inl hin, hrest⟩
        · rintro ⟨hin | rfl, hsome, hne⟩
          · exact ⟨hin, hsome, hne⟩
          · rw [hf, Option.some.injEq] at hsome
            rw [← hsome, hempty] at hne
            cases hne
      | false =>
        simp only [hempty, Bool.false_eq_true, if_false, ExtTreeMap.getElem?_insert,
          LawfulEqOrd.compare_eq_iff_eq]
        by_cases hsel : sel = id
        · subst hsel
          simp only [if_true, hf, or_true, true_and, Option.some.injEq]
          constructor
          · rintro rfl
            exact ⟨rfl, hempty⟩
          · exact And.left
        · have hne : id ≠ sel := fun heq => hsel heq.symm
          simp only [hsel, if_false, ih, hne, or_false]

section Report

variable (h : Verified P rules L s) (hs : P.HashSound L) (horder : P.HashOrderPermutes)
include h hs

/-- The bound on a chain walk is never reached. -/
theorem Verified.replacersWith_eq (horder : P.HashOrderPermutes) {guard : Nat}
    (hguard : (P.lineage L s).selections.size ≤ guard) :
    P.replacersWith guard (P.lineage L s) s = P.replacers (P.lineage L s) s := by
  unfold Platform.replacersWith Platform.replacers
  apply List.foldl_ext
  rintro replacers ⟨id, info⟩ hin
  unfold addReplacer
  split
  · rfl
  · rw [(horder _ _).mem_iff, ExtTreeMap.mem_toList_iff_getElem?_eq_some] at hin
    obtain ⟨x, d, hx, -, rfl, rfl⟩ := (h.lineage_selections hs).mp hin
    have hchain : replaceChain (P.lineage L s).selections guard (findReplaceRef x.refs) =
        replaceChain (P.lineage L s).selections ((P.lineage L s).selections.size + 1)
          (findReplaceRef x.refs) := by
      cases htarget : findReplaceRef x.refs with
      | none => cases guard <;> rfl
      | some id =>
        obtain ⟨y, hy, rfl, hyk, -⟩ := (h.selection_form hs hx.1 hx.2).2 id htarget
        apply replaceChain_eq (h.descends hs) (h.mem_selections hs ⟨hy, hyk⟩)
        · exact (card_upTo_le _).trans hguard
        · exact (card_upTo_le _).trans (Nat.le_succ _)
    rw [hchain]

include horder

/-- The report as the recursion gives it, whatever the defences are. -/
theorem Verified.deriveStandingWith_eq {guard fuel : Nat} {fallback : Bool}
    (hguard : (P.lineage L s).selections.size ≤ guard)
    (hfuel : settleFuel (P.lineage L s).candidates ≤ fuel) :
    P.deriveStandingWith guard fuel fallback L s = P.deriveStanding L s := by
  rw [deriveStanding_eq_with]
  simp only [Platform.deriveStandingWith]
  rw [h.replacersWith_eq hs horder hguard, h.replacersWith_eq hs horder (Nat.le_succ _)]
  have hsound : (P.lineage L s).candidates.keys.filter (fun id => !((P.soundMap fuel fallback
        (P.lineage L s) s (P.anchorTest (P.lineage L s) s))[id]?.getD fallback)) =
      (P.lineage L s).candidates.keys.filter (fun id => !((P.soundMap
        (settleFuel (P.lineage L s).candidates) false (P.lineage L s) s
        (P.anchorTest (P.lineage L s) s))[id]?.getD false)) := by
    apply List.filter_congr
    intro id hid
    have hcand := ExtTreeMap.mem_keys.mp hid
    rw [h.getElem?_soundMap hs horder fallback hfuel, h.getElem?_soundMap hs horder false le_rfl,
      if_pos hcand]
    rfl
  simp only [Platform.anchorTest] at hsound
  simp only [hsound]

theorem Verified.standing : (P.replayEnd L s).Standing P (P.deriveStanding L s) := by
  have hunsound (id : RecordId) : id ∈ (P.lineage L s).selections.keys.filter s.isUnsound ↔
      ∃ x, (P.replayEnd L s).UnsoundSelection x ∧ x.id = id := by
    rw [List.mem_filter, ExtTreeMap.mem_keys]
    constructor
    · rintro ⟨hin, hun⟩
      obtain ⟨x, -, hx, -, rfl, -⟩ := (h.lineage_selections hs).mp
        (ExtTreeMap.getElem?_eq_some_getElem hin)
      exact ⟨x, ⟨hx, isUnsound_iff.mp hun⟩, rfl⟩
    · rintro ⟨x, ⟨hx, hun⟩, rfl⟩
      exact ⟨h.mem_selections hs hx, isUnsound_iff.mpr hun⟩
  rw [deriveStanding_eq_with]
  simp only [Platform.deriveStandingWith]
  rw [h.replacersWith_eq hs horder (Nat.le_succ _)]
  constructor
  · intro id
    exact mem_idSetOf.trans (hunsound id)
  · intro id set
    rw [getElem?_foldl_keep, ExtTreeSet.mem_toList, mem_idSetOf, hunsound]
    constructor
    · rintro ⟨⟨y, hy, rfl⟩, hset, hne⟩
      have hmem (other : RecordId) : other ∈ set ↔
          ∃ x, (P.replayEnd L s).Restores x y ∧ x.id = other := by
        rw [← h.mem_replacers hs horder hy.1, hset, Option.getD_some]
      refine ⟨y, hy, rfl, ?_, hmem⟩
      obtain ⟨other, hother⟩ := isEmpty_false_iff.mp hne
      obtain ⟨x, hx, -⟩ := (hmem other).mp hother
      exact ⟨x, hx⟩
    · rintro ⟨y, hy, rfl, ⟨x, hx⟩, hmem⟩
      have heq : (P.replacers (P.lineage L s) s)[y.id]?.getD ∅ = set := by
        apply ExtTreeSet.ext_mem
        intro other
        rw [h.mem_replacers hs horder hy.1, hmem]
      have hin : x.id ∈ set := (hmem _).mpr ⟨x, hx, rfl⟩
      have hne : set.isEmpty = false := isEmpty_false_iff.mpr ⟨_, hin⟩
      refine ⟨⟨y, hy, rfl⟩, ?_, hne⟩
      cases hset : (P.replacers (P.lineage L s) s)[y.id]? with
      | none =>
        rw [← heq, hset] at hin
        simp at hin
      | some found => rw [← heq, hset, Option.getD_some]
  · intro id
    refine mem_idSetOf.trans ?_
    rw [List.mem_filter, ExtTreeMap.mem_keys]
    constructor
    · rintro ⟨hcand, hval⟩
      obtain ⟨c, d, hc, rfl, -⟩ := (h.lineage_candidates hs).mp
        (ExtTreeMap.getElem?_eq_some_getElem hcand)
      refine ⟨c, d, hc, rfl, fun hsound => ?_⟩
      have hmap := h.getElem?_soundMap hs horder false le_rfl c.id
      simp only [Platform.anchorTest, if_pos hcand, (h.soundness_iff hc.1).mpr hsound] at hmap
      simp [hmap] at hval
    · rintro ⟨c, d, hc, rfl, hsound⟩
      have hcand := h.mem_candidates hs hc.1 hc.2.1
      have hmap := h.getElem?_soundMap hs horder false le_rfl c.id
      rw [← h.soundness_iff hc.1, Bool.not_eq_true] at hsound
      simp only [Platform.anchorTest, if_pos hcand, hsound] at hmap
      exact ⟨hcand, by simp [hmap]⟩

omit horder in
theorem Verified.recursion : (P.replayEnd L s).Recursion P where
  retracted c d _ hr hsound := hsound.proposes.1 hr
  root c d hc hr hb := .root hc hr hb
  continuation c d hc hr hb := by
    obtain ⟨d', hform⟩ := h.candidate_form hs hc.1 hc.2.1
    obtain rfl : d' = d := by simpa [hc.2.2] using hform.payload.symm
    obtain ⟨anchor, ha, hak, hcause, parent, hp, hpk, hparent, hlt⟩ := hform.continuation hb
    obtain ⟨dp, hpform⟩ := h.candidate_form hs hp hpk
    exact ⟨anchor, parent, dp, ⟨ha, hak⟩, hcause, ⟨hp, hpk, hpform.payload⟩, hparent, hlt,
      h.continuation_iff hc hr hb ⟨ha, hak⟩ hcause ⟨hp, hpk, hpform.payload⟩ hparent⟩
  derivation c d hc hr hb := by
    obtain ⟨d', hform⟩ := h.candidate_form hs hc.1 hc.2.1
    obtain rfl : d' = d := by simpa [hc.2.2] using hform.payload.symm
    exact ⟨hform.derivation hb, derivation_iff hc hr hb⟩

omit hs horder in
/-- Nothing is unsound in a log without a retraction. -/
theorem Verified.not_unsound (hnone : ∀ id, id ∉ s.retractedRecords) (x : Record) :
    ¬(P.replayEnd L s).UnsoundSelection x := by
  rintro ⟨-, hret | htaint⟩
  · exact hnone _ hret
  · obtain ⟨-, -, -, b, -, hret⟩ := (h.run.taintExact.tainted _).mp htaint
    exact hnone _ ((h.run.taintExact.retracted _).mpr hret)

omit horder in
theorem Verified.sound_of_unretracted (hnone : ∀ id, id ∉ s.retractedRecords) {c : Record}
    {d : CandidateData} (hc : (P.replayEnd L s).Proposes P c d) :
    (P.replayEnd L s).SoundCandidate P c := by
  have hrec := h.recursion hs
  -- the lineage of a Candidate is earlier than it
  induction hn : c.time.toNat using Nat.strong_induction_on generalizing c d with
  | _ n ih =>
    cases hb : d.basis with
    | root => exact hrec.root c d hc (hnone _) hb
    | continuation =>
      obtain ⟨anchor, parent, dp, ha, -, hp, -, hlt, hiff⟩ := hrec.continuation c d hc (hnone _) hb
      have hanchor : (P.replayEnd L s).SoundSelection anchor :=
        ⟨ha, fun hun => h.not_unsound hnone anchor ⟨ha, hun⟩⟩
      exact hiff.mpr ⟨.inl hanchor, ih _ (hn ▸ hlt) hp rfl⟩
    | derivation =>
      obtain ⟨hcauses, hiff⟩ := hrec.derivation c d hc (hnone _) hb
      apply hiff.mpr
      intro t dt ht hcause
      obtain ⟨x, hx, hid, hlt⟩ := hcauses _ hcause
      obtain rfl := h.run.eq_of_accepted_id hx ht.1 hid
      exact ih _ (hn ▸ hlt) ht rfl

/-- The section is empty in a log without a retraction. -/
theorem Verified.standing_empty (hnone : ∀ id, id ∉ s.retractedRecords) :
    P.deriveStanding L s = {} := by
  have hst := h.standing hs horder
  have hunsound : (P.deriveStanding L s).unsound = ∅ := by
    apply ExtTreeSet.ext_mem
    intro id
    simp only [hst.unsound, ExtTreeSet.not_mem_empty, iff_false]
    rintro ⟨x, hx, -⟩
    exact h.not_unsound hnone x hx
  have hcompromised : (P.deriveStanding L s).compromised = ∅ := by
    apply ExtTreeSet.ext_mem
    intro id
    simp only [hst.compromised, ExtTreeSet.not_mem_empty, iff_false]
    rintro ⟨c, d, hc, -, hcomp⟩
    exact hcomp (h.sound_of_unretracted hs hnone hc)
  have hrest : (P.deriveStanding L s).restorations = ∅ := by
    apply ExtTreeMap.ext_getElem?
    intro id
    rw [ExtTreeMap.getElem?_empty]
    rcases Option.eq_none_or_eq_some (P.deriveStanding L s).restorations[id]? with hn | ⟨set, hsome⟩
    · exact hn
    · obtain ⟨y, hy, -⟩ := (hst.restorations id set).mp hsome
      exact absurd hy (h.not_unsound hnone y)
  generalize P.deriveStanding L s = section_ at hunsound hcompromised hrest
  cases section_
  simp only at hunsound hcompromised hrest
  rw [hunsound, hcompromised, hrest]

end Report

end Bellbook
