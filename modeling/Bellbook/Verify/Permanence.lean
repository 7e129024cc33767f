import Bellbook.Verify.Taint

/-!
# Accepted history is permanent

* Every even prefix of an accepted log is accepted, and its subjects keep the verdicts they have in
  the whole log.
* The marks of a state (accepted, retracted, tainted, replaced) only grow from one record to the next,
  also where a fold removes entries from other maps.

`Replays.rec_from` is the induction over the extensions of a run that both rest on.
-/

namespace Bellbook

open Std

/-- Every mark of the one state is a mark of the other. -/
structure State.MarksWithin (t s : State) : Prop where
  accepted : ∀ id ∈ t.acceptedRecords, id ∈ s.acceptedRecords
  retracted : ∀ id ∈ t.retractedRecords, id ∈ s.retractedRecords
  tainted : ∀ id ∈ t.taintedRecords, id ∈ s.taintedRecords
  replaced : ∀ id ∈ t.replacedRecords, id ∈ s.replacedRecords

variable {P : Platform} {rules : VerifierRules} {L T M : List Record} {s s' t : State} {r v : Record}

namespace State.MarksWithin

theorem refl (s : State) : s.MarksWithin s :=
  ⟨fun _ h => h, fun _ h => h, fun _ h => h, fun _ h => h⟩

theorem trans {u : State} (h : s.MarksWithin t) (h' : t.MarksWithin u) : s.MarksWithin u where
  accepted id hid := h'.accepted id (h.accepted id hid)
  retracted id hid := h'.retracted id (h.retracted id hid)
  tainted id hid := h'.tainted id (h.tainted id hid)
  replaced id hid := h'.replaced id (h.replaced id hid)

end State.MarksWithin

/-! ## One fold -/

theorem subset_markTainted (dependents : IdMap IdSet) (tainted : IdSet) (id : RecordId) :
    ∀ x ∈ tainted, x ∈ markTainted dependents tainted id := by
  intro x hx
  exact (Worklist.mark_complete dependents.nodup_keys (fun _ => dependentsOf_keys)
    (Worklist.mark_fuel _ _)).1 x hx

theorem subset_markAllTainted (dependents : IdMap IdSet) (tainted : IdSet) (ids : List RecordId) :
    ∀ x ∈ tainted, x ∈ markAllTainted dependents tainted ids := by
  induction ids generalizing tainted with
  | nil => exact fun x hx => hx
  | cons id ids ih =>
    intro x hx
    exact ih _ x (subset_markTainted dependents tainted id x hx)

/-- The stage common to all kinds. -/
theorem State.accept_marks (s : State) (r : Record) : s.MarksWithin (s.accept r) where
  accepted id hid := Worklist.mem_insert_iff.mpr (.inr hid)
  retracted id hid := hid
  tainted id hid := by
    show id ∈ if s.inheritsTaint r then _ else _
    split
    · exact subset_markTainted _ _ _ id hid
    · exact hid
  replaced id hid := hid

/-- A Replace ref marks its target and unmarks nothing. -/
theorem State.subset_replaced (s : State) (r : Record) : ∀ id ∈ s.replacedRecords, id ∈ s.replaced r := by
  intro id hid
  unfold State.replaced
  cases findReplaceRef r.refs with
  | none => exact hid
  | some target => exact Worklist.mem_insert_iff.mpr (.inr hid)

/-- The replaced records after the effect of a kind. -/
theorem Folded.replacedRecords (h : Folded P s r s') :
    s'.replacedRecords = s.replacedRecords ∨ s'.replacedRecords = s.replaced r := by
  cases h with
  | refusal _ _ => obtain ⟨_, _, _, _, heq⟩ := State.foldRefusal_eq s _; rw [heq]; exact .inl rfl
  | response _ _ => obtain ⟨_, _, _, heq⟩ := State.foldResponse_eq s _; rw [heq]; exact .inl rfl
  | requirement _ _ => obtain ⟨_, _, heq⟩ := State.foldRequirement_eq s r _; rw [heq]; exact .inl rfl
  | capability _ _ => exact .inr rfl
  | approval _ _ => exact .inr rfl
  | summary _ _ _ => exact .inr rfl
  | plan _ _ => exact .inr rfl
  | selection _ _ _ => exact .inr rfl
  | request _ => exact .inl rfl
  | action _ _ _ => exact .inl rfl
  | result _ _ => exact .inl rfl
  | usage _ _ => exact .inl rfl
  | retraction _ _ => exact .inl rfl
  | inert _ => exact .inl rfl

/-- The effect of a kind takes no mark back. -/
theorem Folded.marks (h : Folded P s r s') : s.MarksWithin s' where
  accepted id hid := h.acceptedRecords ▸ hid
  retracted id hid := by
    rcases h.taint_cases with ⟨-, d, -, rfl⟩ | ⟨-, hret, -⟩
    · exact Worklist.mem_insert_iff.mpr (.inr hid)
    · exact hret ▸ hid
  tainted id hid := by
    rcases h.taint_cases with ⟨-, d, -, rfl⟩ | ⟨-, -, htaint, -⟩
    · exact subset_markAllTainted _ _ _ id hid
    · exact htaint ▸ hid
  replaced id hid := by
    rcases h.replacedRecords with heq | heq
    · exact heq ▸ hid
    · rw [heq]
      exact State.subset_replaced s r id hid

/-- **One round takes no mark back.** -/
theorem PairStep.marks (h : PairStep P rules L s r v s') : s.MarksWithin s' := by
  rcases h.cases with ⟨-, rfl⟩ | ⟨-, t, hf, rfl⟩
  · exact ⟨fun _ h => h, fun _ h => h, fun _ h => h, fun _ h => h⟩
  · have hmarks := (State.accept_marks s r).trans hf.marks
    exact ⟨hmarks.accepted, hmarks.retracted, hmarks.tainted, hmarks.replaced⟩

/-! ## Extensions of a run -/

/-- **Induction over the extensions of a run**, a pair at a time. -/
theorem Replays.rec_from {motive : List Record → State → Prop} (hT : Replays P rules T t)
    (start : motive T t)
    (step : ∀ {L s r v s'}, T <+: L → Replays P rules L s → PairStep P rules L s r v s' →
      motive L s → motive (L ++ [r, v]) s')
    (h : Replays P rules (T ++ M) s) : motive (T ++ M) s := by
  obtain ⟨n, hn⟩ := h.even
  obtain ⟨m, hm⟩ := hT.even
  rw [List.length_append] at hn
  -- on the number of pairs of `M`, taking the last one off
  induction hk : n - m generalizing M s n with
  | zero =>
    obtain rfl : M = [] := List.length_eq_zero_iff.mp (by omega)
    rw [List.append_nil] at h ⊢
    rwa [← hT.unique h]
  | succ k ih =>
    obtain ⟨M', v, rfl⟩ := List.eq_nil_or_concat M |>.resolve_left (by rintro rfl; simp at hn; omega)
    obtain ⟨M', r, rfl⟩ := List.eq_nil_or_concat M' |>.resolve_left (by rintro rfl; simp at hn; omega)
    have hsplit : T ++ (M' ++ [r] ++ [v]) = T ++ M' ++ [r, v] := by simp
    simp only [List.concat_eq_append, hsplit] at h ⊢
    obtain ⟨u, hu, hstep⟩ := h.inv_snoc
    have hlen : T.length + M'.length = 2 * (n - 1) := by
      simp at hn
      omega
    exact step (List.prefix_append T M') hu hstep (ih hu (n - 1) hlen (by omega))

/-- **The marks of a run are permanent.** -/
theorem Replays.marks (hT : Replays P rules T t) (h : Replays P rules (T ++ M) s) :
    t.MarksWithin s := by
  refine hT.rec_from (motive := fun _ s => t.MarksWithin s) (State.MarksWithin.refl t) ?_ h
  intro L s r v s' _ _ hstep ih
  exact ih.trans hstep.marks

/-- The verdict map of a run and one more pair. -/
theorem Replays.verdictMap_snoc (h : Replays P rules L s) (hstep : PairStep P rules L s r v s') :
    ∃ m, P.verdictMap L = some m ∧ P.verdictMap (L ++ [r, v]) =
      some (m.insert r.id (verdictOf (P.checkRecord rules (priorView (L ++ [r])) s r))) := by
  obtain ⟨m, t, hm, ht, rfl⟩ := h.passes
  obtain ⟨u, hu, rfl⟩ := Option.map_eq_some_iff.mp hstep.folded
  rw [applyRecord_appliedUpTo] at hu
  obtain ⟨w, hw, -⟩ := Option.map_eq_some_iff.mp hu
  exact ⟨m, hm, (passes_snoc hm ht hstep.subject hstep.verdict hstep.firstCause hstep.judged
    (fun x hx hk => h.fresh hstep hx hk) hw).1⟩

/-- The verdict of a subject stays the one it has. -/
theorem Replays.verdict_kept (hT : Replays P rules T t) (h : Replays P rules (T ++ M) s)
    {x : Record} (hx : x ∈ T) (hk : x.kind ≠ .verdict) :
    ((P.verdictMap (T ++ M)).bind fun m => m[x.id]?) = (P.verdictMap T).bind fun m => m[x.id]? := by
  refine hT.rec_from (motive := fun L _ => ((P.verdictMap L).bind fun m => m[x.id]?) =
    (P.verdictMap T).bind fun m => m[x.id]?) rfl ?_ h
  intro L s r v s' hpre hrun hstep ih
  obtain ⟨m, hm, hnext⟩ := hrun.verdictMap_snoc hstep
  have hne : x.id ≠ r.id := hrun.fresh hstep (hpre.subset hx) hk
  rw [← ih, hm, hnext, Option.bind_some, Option.bind_some, ExtTreeMap.getElem?_insert,
    if_neg (by simpa using hne.symm)]

/-! ## Prefixes -/

theorem Verified.accepted_take_iff (h : Verified P rules L s) {k : Nat} (hk : 2 * k ≤ L.length)
    {x : Record} (hx : x ∈ L.take (2 * k)) :
    x ∈ P.accepted (L.take (2 * k)) ↔ x ∈ P.accepted L := by
  obtain ⟨t, ht⟩ := h.take hk
  exact ⟨fun hacc => accepted_mono ht.run (List.take_prefix _ _) hacc,
    fun hacc => h.accepted_take ht hacc hx⟩

/-- An id of an earlier subject is accepted later only if it was. -/
theorem Replays.acceptedRecords_take (hT : Replays P rules T t) (h : Replays P rules (T ++ M) s)
    {x : Record} (hx : x ∈ T) (hk : x.kind ≠ .verdict) :
    x.id ∈ t.acceptedRecords ↔ x.id ∈ s.acceptedRecords := by
  refine hT.rec_from (motive := fun _ s => x.id ∈ t.acceptedRecords ↔ x.id ∈ s.acceptedRecords)
    Iff.rfl ?_ h
  intro L s r v s' hpre hrun hstep ih
  rw [ih, hrun.mem_acceptedRecords, (hrun.snoc hstep).mem_acceptedRecords]
  have hne : x.id ≠ r.id := hrun.fresh hstep (hpre.subset hx) hk
  rcases hrun.step_cases hstep with ⟨hacc, -⟩ | ⟨hacc, -⟩
  · rw [hacc]
  · rw [hacc]
    constructor
    · rintro ⟨a, ha, hid⟩
      exact ⟨a, List.mem_append_left _ ha, hid⟩
    · rintro ⟨a, ha, hid⟩
      rcases List.mem_append.mp ha with ha | ha
      · exact ⟨a, ha, hid⟩
      · rw [List.mem_singleton] at ha
        exact absurd (ha ▸ hid).symm hne

/-- **Accepted history is prefix-closed and its marks are permanent.** Every even prefix of an accepted
log is accepted; its subjects have the verdicts they have in the whole log, and its records are
accepted in it exactly when they are in the whole log; and every mark of its state is one of the whole
log. -/
theorem history_permanent (h : P.Accepts rules L) (k : Nat) (hk : 2 * k ≤ L.length) :
    P.Accepts rules (L.take (2 * k)) ∧
      (∀ x ∈ L.take (2 * k), (x ∈ P.accepted (L.take (2 * k)) ↔ x ∈ P.accepted L)) ∧
      (∀ x ∈ L.take (2 * k), x.kind ≠ .verdict →
        ((P.verdictMap L).bind fun m => m[x.id]?) =
          (P.verdictMap (L.take (2 * k))).bind fun m => m[x.id]?) ∧
      ∃ t s, P.buildStateUnchecked (L.take (2 * k)) = some t ∧ P.buildStateUnchecked L = some s ∧
        t.MarksWithin s ∧ ∀ x ∈ L.take (2 * k), x.kind ≠ .verdict →
          (x.id ∈ t.acceptedRecords ↔ x.id ∈ s.acceptedRecords) := by
  obtain ⟨s, hv⟩ := accepts_iff.mp h
  obtain ⟨t, ht⟩ := hv.take hk
  have hrun : Replays P rules (L.take (2 * k) ++ L.drop (2 * k)) s := by
    rw [List.take_append_drop]
    exact hv.run
  refine ⟨accepts_iff.mpr ⟨t, ht⟩, fun x hx => hv.accepted_take_iff hk hx, ?_, t, s, ht.run.build,
    hv.run.build, ht.run.marks hrun, fun x hx hkind => ht.run.acceptedRecords_take hrun hx hkind⟩
  intro x hx hkind
  have hkept := ht.run.verdict_kept hrun hx hkind
  rwa [List.take_append_drop] at hkept

/-- The sample log and its first pair. -/
theorem sampleRound_permanent : reference.Accepts sampleRules (sampleLog.take (2 * 1)) ∧
    ∃ t s, reference.buildStateUnchecked (sampleLog.take (2 * 1)) = some t ∧
      reference.buildStateUnchecked sampleLog = some s ∧ t.MarksWithin s := by
  obtain ⟨hacc, -, -, t, s, ht, hs, hmarks, -⟩ := history_permanent sampleLog_accepts 1 (by decide)
  exact ⟨hacc, t, s, ht, hs, hmarks⟩

end Bellbook
