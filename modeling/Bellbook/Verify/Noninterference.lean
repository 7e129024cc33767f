import Bellbook.Verify.Lifecycle
import Bellbook.Verify.Permanence
import Bellbook.Verify.Specification

/-!
# Rejected history does not interfere

A rejected pair leaves no trace in the state, and what a check looks up beyond the ids a record mentions
(the authority the state holds, the actions behind accepted results) belongs to accepted records. So
a log and the same log without a rejected pair judge every record alike that does not mention the pair,
and rebuild to one state but for its time.
-/

namespace Bellbook

open Std

variable {P : Platform} {rules : VerifierRules} {A B L : List Record} {s t : State} {r x vx : Record}

/-! ## The log without the pair -/

/-- A lookup of another id does not see the pair. -/
theorem find_without {id : RecordId} (hx : id ≠ x.id) (hvx : id ≠ vx.id) :
    (priorView (A ++ x :: vx :: B)).find id = (priorView (A ++ B)).find id := by
  show List.find? _ (A ++ x :: vx :: B) = List.find? _ (A ++ B)
  rw [List.find?_append, List.find?_append, List.find?_cons_of_neg (by simpa using hx.symm),
    List.find?_cons_of_neg (by simpa using hvx.symm)]

theorem nodup_of_verified (h : Verified P rules L s) : L.Nodup := by
  rw [List.nodup_iff_injective_getElem]
  intro i j heq
  have hi := h.time_eq i.2
  have hj := h.time_eq j.2
  have heq' : L[i.1] = L[j.1] := heq
  rw [heq', hj] at hi
  exact Fin.ext (by omega)

/-- The subject of a rejected pair is not accepted. -/
theorem Verified.not_accepted (h : Verified P rules (A ++ x :: vx :: B) s) {k : Nat}
    (hA : A.length = 2 * k) (hrej : P.storedAccept vx = false) :
    x ∉ P.accepted (A ++ x :: vx :: B) := by
  have hnodup := nodup_of_verified h
  rw [List.nodup_middle, List.nodup_cons] at hnodup
  rw [accepted_append hA]
  simp only [Platform.accepted, hrej, Bool.false_eq_true, if_false, List.mem_append, not_or]
  refine ⟨fun hx => hnodup.1 ?_, fun hx => hnodup.1 ?_⟩
  · exact List.mem_append_left _ (mem_of_mem_accepted hx)
  · exact List.mem_append_right _ (List.mem_cons_of_mem _ (mem_of_mem_accepted hx))

section Pair

variable {k : Nat} (hs : P.HashSound (A ++ x :: vx :: B))
  (h : Verified P rules (A ++ x :: vx :: B) s) (hA : A.length = 2 * k)
  (hrej : P.storedAccept vx = false)
include h hA

/-- The pair is a round of the replay. -/
theorem Verified.middle_round : ∃ t t', Replays P rules A t ∧ PairStep P rules A t x vx t' ∧
    Replays P rules (A ++ [x, vx]) t' := by
  obtain ⟨t, ht⟩ := h.take (k := k) (by simp; omega)
  rw [← hA, List.take_left] at ht
  obtain ⟨t', hstep, hrun⟩ := ht.run.mid h.run
  exact ⟨t, t', ht.run, hstep, hrun⟩

include hs hrej

/-- An accepted id is neither of the pair's. -/
theorem Verified.accepted_ne {id : RecordId} (hid : id ∈ s.acceptedRecords) :
    id ≠ x.id ∧ id ≠ vx.id := by
  obtain ⟨a, ha, rfl⟩ := h.run.mem_acceptedRecords.mp hid
  obtain ⟨hmem, hkind⟩ := h.run.mem_of_mem_accepted ha
  obtain ⟨t, t', -, hstep, -⟩ := h.middle_round hA
  constructor
  · intro heq
    have hax : a = x := h.eq_of_id_eq hs hmem (by simp) heq
    exact h.not_accepted hA hrej (hax ▸ ha)
  · intro heq
    have hav : a = vx := h.eq_of_id_eq hs hmem (by simp) heq
    exact hkind (hav ▸ hstep.verdict)

/-- Whatever the check of a record looks up beyond the ids it mentions was accepted. -/
theorem Verified.sameLookups_without (hx : x.id ∉ P.mentionedIds r) (hvx : vx.id ∉ P.mentionedIds r) :
    SameLookups P s (priorView (A ++ x :: vx :: B)) (priorView (A ++ B)) r where
  mentioned id hid := find_without (fun heq => hx (heq ▸ hid)) fun heq => hvx (heq ▸ hid)
  authority id hauth := by
    obtain ⟨hne, hne'⟩ := h.accepted_ne hs hA hrej (h.run.authority_accepted hauth)
    exact find_without hne hne'
  results id t hfind hkind hacc d hd := by
    -- the action an accepted Result closes is an accepted one
    obtain ⟨hmem, rfl⟩ := find_mem hfind
    have haccepted := h.accepted_of_mem hs hmem hacc
    obtain ⟨a, ha, hid, -⟩ := h.actionsInv.closed t haccepted d.actionId (.inl ⟨hkind, d, hd, rfl⟩)
    have hopen : d.actionId ∈ s.acceptedRecords := h.run.mem_acceptedRecords.mpr ⟨a, ha, hid⟩
    obtain ⟨hne, hne'⟩ := h.accepted_ne hs hA hrej hopen
    exact find_without hne hne'

omit hs hrej in
/-- Who has been judged, the pair's subject apart. -/
theorem Verified.hasVerdictFor_without {id : RecordId} (hx : id ≠ x.id) :
    (priorView (A ++ x :: vx :: B)).hasVerdictFor id = (priorView (A ++ B)).hasVerdictFor id := by
  obtain ⟨t, t', -, hstep, -⟩ := h.middle_round hA
  have hv : vx.judges id = false := by
    rw [← Bool.not_eq_true]
    intro hj
    exact hx ((hstep.judges id).mp hj)
  show List.any _ _ = List.any _ _
  rw [List.any_append, List.any_append, List.any_cons, List.any_cons, hstep.subject_judges, hv,
    Bool.false_or, Bool.false_or]

omit hs hrej in
/-- The envelope checks of another verdict. -/
theorem Verified.checkVerdictRecord_without (hx : x.id ∉ P.mentionedIds r)
    (hvx : vx.id ∉ P.mentionedIds r) :
    P.checkVerdictRecord rules (priorView (A ++ x :: vx :: B)) r =
      P.checkVerdictRecord rules (priorView (A ++ B)) r := by
  unfold Platform.checkVerdictRecord
  split
  · next ref hrefs =>
    have hmem : ref.target ∈ P.mentionedIds r :=
      List.mem_append_left _ (by rw [hrefs]; exact List.mem_singleton.mpr rfl)
    have hne : ref.target ≠ x.id := fun heq => hx (heq ▸ hmem)
    have hne' : ref.target ≠ vx.id := fun heq => hvx (heq ▸ hmem)
    rw [find_without hne hne', h.hasVerdictFor_without hA hne]
  · rfl

/-- **A record that does not mention a rejected pair is judged as if the pair were not there.** -/
theorem Verified.verifyRecord_without (hx : x.id ∉ P.mentionedIds r) (hvx : vx.id ∉ P.mentionedIds r) :
    P.verifyRecord rules (A ++ x :: vx :: B) s r = P.verifyRecord rules (A ++ B) s r := by
  rw [verifyRecord_eq, verifyRecord_eq]
  congr 1
  unfold Platform.checkRecord
  split
  · exact h.checkVerdictRecord_without hA hx hvx
  · exact checkSubject_congr (h.sameLookups_without hs hA hrej hx hvx)

end Pair

/-! ## The state without the pair -/

/-- Two states that differ in nothing but their time fold alike. -/
theorem applyRecord_of_time_eq {s' : State} {d : VerdictData} {τ : Time}
    (heq : { t with appliedUpTo := τ } = s) (h : P.applyRecord s r d = some s') :
    ∃ t', P.applyRecord t r d = some t' ∧ { t' with appliedUpTo := s'.appliedUpTo } = s' := by
  subst heq
  rw [applyRecord_appliedUpTo] at h
  obtain ⟨t', ht', rfl⟩ := Option.map_eq_some_iff.mp h
  exact ⟨t', ht', rfl⟩

/-- Both passes of the rebuild, over a run without a rejected pair. -/
theorem Replays.passes_without {u u' : State} (hA : Replays P rules A u)
    (hstep : PairStep P rules A u x vx u') (hrej : P.storedAccept vx = false)
    (h : Replays P rules (A ++ [x, vx] ++ B) s) :
    ∃ m t, P.verdictMap (A ++ B) = some m ∧ (A ++ B).foldlM (P.buildStep m) State.empty = some t ∧
      { t with appliedUpTo := s.appliedUpTo } = s := by
  -- over the pairs of `B`; the log of each step is known to start with the pair
  refine (hA.snoc hstep).rec_from (motive := fun L s => ∀ B, L = A ++ [x, vx] ++ B →
    ∃ m t, P.verdictMap (A ++ B) = some m ∧ (A ++ B).foldlM (P.buildStep m) State.empty = some t ∧
      { t with appliedUpTo := s.appliedUpTo } = s) ?_ ?_ h B rfl
  · intro B hB
    obtain rfl : B = [] := by simpa using hB
    obtain ⟨m, t, hm, ht, hs⟩ := hA.passes
    rw [List.append_nil]
    refine ⟨m, t, hm, ht, ?_⟩
    rcases hstep.cases with ⟨-, rfl⟩ | ⟨hc, -⟩
    · rw [← hs]
    · -- an accepted subject has an accepting verdict
      rw [Platform.storedAccept, hstep.judged, hc] at hrej
      cases hrej
  · intro L s r v s' hpre hrun hround ih B hB
    obtain ⟨B', rfl⟩ := hpre
    obtain rfl : B = B' ++ [r, v] := by
      rw [List.append_assoc] at hB
      exact (List.append_cancel_left hB).symm
    obtain ⟨m, t, hm, ht, hs⟩ := ih B' rfl
    obtain ⟨w, hw, rfl⟩ := Option.map_eq_some_iff.mp hround.folded
    obtain ⟨t', ht', htime⟩ := applyRecord_of_time_eq hs hw
    have hfresh : ∀ y ∈ A ++ B', y.kind ≠ .verdict → y.id ≠ r.id := by
      intro y hy hk
      refine hrun.fresh hround ?_ hk
      rcases List.mem_append.mp hy with hy | hy
      · exact List.mem_append_left _ (List.mem_append_left _ hy)
      · exact List.mem_append_right _ hy
    obtain ⟨hmap, hfold⟩ := passes_snoc hm ht hround.subject hround.verdict hround.firstCause
      hround.judged hfresh ht'
    rw [← List.append_assoc]
    refine ⟨_, t', hmap, hfold, ?_⟩
    rw [← htime]

/-- **Rejected history cannot influence later judgments.** Without a rejected pair, an accepted log
rebuilds to the same state but for its time, and gives the same verdict on every record that mentions
neither record of the pair. -/
theorem rejected_pair_noninterference (hs : P.HashSound (A ++ x :: vx :: B))
    (h : P.Accepts rules (A ++ x :: vx :: B)) {k : Nat} (hA : A.length = 2 * k)
    (hrej : P.storedAccept vx = false) :
    ∃ s t, P.buildStateUnchecked (A ++ x :: vx :: B) = some s ∧
      P.buildStateUnchecked (A ++ B) = some t ∧ { t with appliedUpTo := s.appliedUpTo } = s ∧
      ∀ r, x.id ∉ P.mentionedIds r → vx.id ∉ P.mentionedIds r →
        P.verifyRecord rules (A ++ x :: vx :: B) s r = P.verifyRecord rules (A ++ B) s r := by
  obtain ⟨s, hv⟩ := accepts_iff.mp h
  obtain ⟨u, u', hu, hstep, -⟩ := hv.middle_round hA
  have hrun : Replays P rules (A ++ [x, vx] ++ B) s := by
    rw [List.append_assoc]
    exact hv.run
  obtain ⟨m, t, hm, ht, htime⟩ := hu.passes_without hstep hrej hrun
  refine ⟨s, { t with appliedUpTo := lastTime (A ++ B) }, hv.run.build, ?_, htime,
    fun r hx hvx => hv.verifyRecord_without hs hA hrej hx hvx⟩
  unfold Platform.buildStateUnchecked
  rw [hm, Option.bind_eq_bind, Option.bind_some, ht]
  rfl

/-- The stray Request leaves nothing behind for the sample Request. -/
theorem strayLog_noninterference : reference.Accepts sampleRules strayLog ∧
    ∃ s t, reference.buildStateUnchecked strayLog = some s ∧
      reference.buildStateUnchecked [] = some t ∧ { t with appliedUpTo := s.appliedUpTo } = s ∧
      reference.verifyRecord sampleRules strayLog s sampleRequest =
        reference.verifyRecord sampleRules [] s sampleRequest := by
  obtain ⟨s, t, hs, ht, htime, hsame⟩ := rejected_pair_noninterference (A := []) (B := []) (k := 0)
    strayLog_hashSound strayLog_accepts rfl (by decide +kernel)
  exact ⟨strayLog_accepts, s, t, hs, ht, htime, hsame sampleRequest (by decide +kernel) (by decide +kernel)⟩

end Bellbook
