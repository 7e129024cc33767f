import Bellbook.Receipt.Delivery
import Bellbook.Verify.Specification

/-!
# The fold cannot fail on what the verifier accepts

`apply_record` decodes a payload by the kind of its record, and the verifier has checked it by its
schema. Under the frozen map the two agree (`applyAccepted_total`), so the branches that report a
failed fold are dead: in the replay itself, and wherever the state of an accepted log is built again.

* A subject that passes is folded, in whatever state (`applyRecord_of_checked`).
* The state of an accepted log is the one its pairs are folded to (`Replays.foldPairs`).
* The replay reaches no verdict that it could fold a second time (`Platform.Reaches.no_lone`).
-/

namespace Bellbook

open Std

namespace Platform

variable (P : Platform)

/-- The fold of a log, one subject and its verdict at a time. -/
def foldPairs : State → List Record → Option State
  | s, r :: v :: rest => do
    let verdict ← P.decode VerdictData v.data
    let t ← P.applyRecord s r verdict
    foldPairs { t with appliedUpTo := v.time } rest
  | s, _ => some s

/-- The replay of the log without a checkpoint gets to position `pos`, in the loop state `st`. -/
def Reaches (rules : VerifierRules) (records : List Record) (pos : Nat) (st : ReplayState) : Prop :=
  P.replayLoop rules records 0 (records.take pos) ⟨State.empty, {}, 0⟩ = .ok st

end Platform

variable {P : Platform} {rules : VerifierRules} {L : List Record} {s : State}

/-! ## Pair by pair -/

theorem foldPairs_append {M : List Record} : ∀ {L : List Record} {n : Nat}, L.length = 2 * n →
    ∀ s, P.foldPairs s (L ++ M) = (P.foldPairs s L).bind fun t => P.foldPairs t M
  | [], _, _, _ => rfl
  | [_], _, hlen, _ => by
    simp only [List.length_singleton] at hlen
    omega
  | r :: v :: L, n, hlen, s => by
    have ih := foldPairs_append (M := M) (L := L) (n := n - 1)
      (by simp only [List.length_cons] at hlen; omega)
    simp only [List.cons_append, Platform.foldPairs, Option.bind_eq_bind]
    cases P.decode VerdictData v.data with
    | none => rfl
    | some verdict =>
      simp only [Option.bind_some]
      cases P.applyRecord s r verdict with
      | none => rfl
      | some t => exact ih _

/-- **The state of a run is that of its pairs.** -/
theorem Replays.foldPairs (h : Replays P rules L s) : P.foldPairs State.empty L = some s := by
  induction h with
  | nil => rfl
  | snoc hL hstep ih =>
    obtain ⟨n, hn⟩ := hL.even
    have hfold := hstep.folded
    rw [foldPairs_append hn, ih, Option.bind_some]
    simp only [Platform.foldPairs, hstep.judged, Option.bind_eq_bind, Option.bind_some]
    obtain ⟨t, ht, hs⟩ := Option.map_eq_some_iff.mp hfold
    rw [ht, Option.bind_some, hs]

/-! ## The replay -/

/-- The loop gets to a position only by replaying what comes before it. -/
theorem Platform.Reaches.replays {records : List Record} {pos : Nat} {st : ReplayState}
    (h : P.Reaches rules records pos st) :
    Replays P rules (records.take pos) st.state ∧ st.index = PriorIndex.of (records.take pos) := by
  have hloop : P.replayLoop rules ([] ++ (records.take pos ++ records.drop pos)) ([] : List Record).length
      (records.take pos) ⟨State.empty, PriorIndex.of [], 0⟩ = .ok st := by
    rw [List.nil_append, List.take_append_drop]
    exact h
  obtain ⟨hrun, hindex, -⟩ := (replayLoop_append_eq_ok Replays.nil).mp hloop
  exact ⟨hrun, hindex⟩

/-- A verdict that follows no subject is refused before its subject would be folded again. -/
theorem Platform.Reaches.no_lone {records : List Record} {pos : Nat} {st : ReplayState}
    (h : P.Reaches rules records pos st) (v : Record) :
    P.checkVerdictRecord rules (st.index.view records) v ≠ none := by
  obtain ⟨hrun, hindex⟩ := h.replays
  have hview : st.index.view records = priorView (records.take pos) := by
    have hof := PriorIndex.view_of (records.take pos) (records.drop pos)
    rwa [List.take_append_drop, ← hindex] at hof
  obtain ⟨reason, hreason⟩ := hrun.verdict_refused v
  rw [hview, hreason]
  exact Option.some_ne_none reason

/-! ## Building again -/

/-- `verify_and_build_state` gives a state exactly to the logs that are accepted. -/
theorem verifyAndBuildState_ok_iff :
    (∃ s, P.verifyAndBuildState rules L = .ok s) ↔ P.Accepts rules L := by
  unfold Platform.verifyAndBuildState
  constructor
  · rintro ⟨s, hs⟩
    by_contra hreject
    simp only [show (P.verifyLog rules L none).result ≠ .accept from hreject, ne_eq, not_false_eq_true,
      if_true, reduceCtorEq] at hs
  · intro haccept
    obtain ⟨s, hv⟩ := accepts_iff.mp haccept
    refine ⟨s, ?_⟩
    simp only [show (P.verifyLog rules L none).result = .accept from haccept, ne_eq, not_true,
      if_false, hv.run.build]

/-- A rejected log has a reason. -/
theorem reason_of_rejected (h : ¬P.Accepts rules L) :
    ∃ reason, (P.verifyLog rules L none).reason = some reason := by
  unfold Platform.Accepts Platform.verifyLog at h
  unfold Platform.verifyLog
  cases hlog : P.replayLog rules L none with
  | error rejection => exact ⟨rejection.reason, rfl⟩
  | ok st =>
    rw [hlog] at h
    exact absurd rfl h

/-- `Queries::new` reports an invalid log with the reason it was rejected for, never without one. -/
theorem queries_ne_invalid : P.queries rules L ≠ .error (.logInvalid none) := by
  intro herror
  by_cases haccept : P.Accepts rules L
  · obtain ⟨s, hv⟩ := accepts_iff.mp haccept
    rw [hv.queries_eq] at herror
    cases herror
  · obtain ⟨reason, hreason⟩ := reason_of_rejected haccept
    unfold Platform.queries at herror
    simp only [show (P.verifyLog rules L none).result ≠ .accept from haccept, ne_eq,
      not_false_eq_true, if_true, hreason] at herror
    cases herror

/-- **The fold cannot fail on what the verifier accepts.** -/
theorem fold_never_fails (hfrozen : P.Frozen rules) (hdist : P.SchemasDistinct) :
    -- one more record, after an accepted log
    (∀ L S r d, P.Accepts rules L → P.buildStateUnchecked L = some S → r.kind ≠ .verdict →
      (P.verifyRecord rules L S r).result = .accept → d.result = .accept →
      ∃ S', P.applyRecord S r d = some S') ∧
    -- the state of an accepted log
    (∀ L, P.Accepts rules L →
      ∃ S, P.buildStateUnchecked L = some S ∧ P.foldPairs State.empty L = some S) ∧
    (∀ L, (∃ S, P.verifyAndBuildState rules L = .ok S) ↔ P.Accepts rules L) ∧
    (∀ L, P.queries rules L ≠ .error (.logInvalid none)) ∧
    -- what the profile evaluators build, over a receipt that validated
    (∀ limits bytes r, P.fromBytes bytes = some r →
      (P.validateWithLimits limits bytes).status ≠ .invalid →
      ∃ S, P.buildStateUnchecked r.records = some S) ∧
    -- the two folds of the replay loop
    (∀ records pos st, P.Reaches rules records pos st →
      (∀ r v stored, records[pos]? = some r → r.kind ≠ .verdict → records[pos + 1]? = some v →
        P.decode VerdictData v.data = some stored →
        verdictOf (P.checkRecord rules ((st.index.insert pos r).view records) st.state r) = stored →
        ∃ S', P.applyRecord st.state r stored = some S') ∧
      ∀ v, records[pos]? = some v → v.kind = .verdict →
        P.checkVerdictRecord rules (st.index.view records) v ≠ none) := by
  refine ⟨?_, ?_, fun L => verifyAndBuildState_ok_iff, fun L => queries_ne_invalid, ?_, ?_⟩
  · intro L S r d _ _ hk haccept _
    have hc : P.checkRecord rules (priorView L) S r = none := by
      rw [verifyRecord_eq] at haccept
      cases hc : P.checkRecord rules (priorView L) S r with
      | none => rfl
      | some reason =>
        rw [hc] at haccept
        cases haccept
    exact applyRecord_of_checked hfrozen hdist hk hc S d
  · intro L haccept
    obtain ⟨s, hv⟩ := accepts_iff.mp haccept
    exact ⟨s, hv.run.build, hv.run.foldPairs⟩
  · intro limits bytes r hr hvalid
    obtain ⟨schemas, s, hv, -⟩ := validated hr hvalid
    exact ⟨s, hv.run.build⟩
  · intro records pos st hreach
    refine ⟨fun r v stored _ hk _ _ hsame => ?_, fun v _ _ => hreach.no_lone v⟩
    exact applyRecord_of_recomputed hfrozen hdist hk hsame

/-- The Capability of the sample log, folded after the first pair. -/
theorem sampleCapability_folds : ∃ S, reference.buildStateUnchecked sampleRound = some S ∧
    ∃ S', reference.applyRecord S sampleCapability ⟨.accept, none⟩ = some S' := by
  obtain ⟨S, hv⟩ := accepts_iff.mp sampleRound_accepts
  have hjudged : (reference.buildStateUnchecked sampleRound).map (fun S =>
      (reference.verifyRecord sampleRules sampleRound S sampleCapability).result) = some .accept := by
    decide +kernel
  rw [hv.run.build, Option.map_some, Option.some.injEq] at hjudged
  refine ⟨S, hv.run.build, ?_⟩
  exact (fold_never_fails sampleRules_frozen sampleLog_hashSound.schemasDistinct).1 sampleRound S
    sampleCapability ⟨.accept, none⟩ sampleRound_accepts hv.run.build (by decide) hjudged rfl

end Bellbook
