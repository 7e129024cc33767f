import Bellbook.Log.ExactlyOnce

/-!
# Failing calls

What a call leaves behind when it fails, and what a batch does whatever order it is given in.

* A commit ends in one of three ways (`commitInner_cases`): before its first intent write has
  succeeded, with everything as it was but for the intent file; after it, with the handle closed; or
  with `Ok`, two times later.
* A closed handle stays closed, whatever is called on it (`commit_failure_atomic`).
* `batch_commit` depends on the proposals of its batch only (`batchCommit_perm`).
-/

namespace Bellbook

open Std

/-! ## Calls on a handle -/

/-- A call on a handle, with the faults of its file writes. -/
inductive HandleCall where
  | commit (faults : Faults) (p : Proposal)
  | commitSigned (faults : Faults) (secret : Hash256) (p : Proposal)
  | batchCommit (faults : Nat → Faults) (ps : List Proposal)
  | checkedBatchCommit (faults : Nat → Faults) (expectedHead : RecordId) (ps : List Proposal)

/-- A batch of nothing returns before it looks at the handle. -/
def HandleCall.Nonempty : HandleCall → Prop
  | .batchCommit _ ps => ps ≠ []
  | _ => True

namespace Platform

variable (P : Platform)

/-- `LogWriter::batch_commit`, where the commit at position `i` of the sorted batch has the faults
`faults i`. -/
def batchCommitWith (rules : VerifierRules) (faults : Nat → Faults) (w : LogWriter) (s : State)
    (proposals : List Proposal) : Outcome (List (RecordId × VerdictData)) :=
  P.commitEach rules faults w s (P.sortBatch proposals)

/-- The call, with nothing but the fact that it succeeded as result. -/
def callOn (rules : VerifierRules) (w : LogWriter) (s : State) : HandleCall → Outcome Unit
  | .commit faults p =>
    let o := P.commit rules faults w s p
    ⟨o.result.map fun _ => (), o.writer, o.state⟩
  | .commitSigned faults secret p =>
    let o := P.commitSigned rules faults secret w s p
    ⟨o.result.map fun _ => (), o.writer, o.state⟩
  | .batchCommit faults ps =>
    let o := P.batchCommitWith rules faults w s ps
    ⟨o.result.map fun _ => (), o.writer, o.state⟩
  | .checkedBatchCommit faults expectedHead ps =>
    let o := P.checkedBatchCommit rules faults expectedHead w s ps
    ⟨o.result.map fun _ => (), o.writer, o.state⟩

/-- The handle after any calls, failed or not, with any rules and states of their callers. -/
def callsOn (w : LogWriter) (calls : List (VerifierRules × State × HandleCall)) : LogWriter :=
  calls.foldl (fun w c => (P.callOn c.1 w c.2.1 c.2.2).writer) w

/-- The first intent write of the commit succeeds. -/
def IntentWritten (rules : VerifierRules) (faults : Faults) (signer : Option Hash256) (w : LogWriter)
    (s : State) (p : Proposal) : Prop :=
  ∃ c, P.prepare rules signer w s p = .ok c ∧
    (P.writeIntent w.log (faults .intent) ⟨c.subject.id, false⟩).1 = .ok ()

end Platform

variable {P : Platform} {rules : VerifierRules} {w : LogWriter} {s : State} {p : Proposal}
  {ps qs : List Proposal} {faults : Faults} {signer : Option Hash256}

/-! ## One commit -/

theorem toNat_saturatingNext {t : Time} (h : t.toNat < 18446744073709551615) :
    (saturatingNext t).toNat = t.toNat + 1 := by
  have hnext : nextTime? t = some (t + 1) := if_neg (by omega)
  rw [saturatingNext, hnext]
  exact nextTime?_eq_some.mp hnext

theorem TimeSource.advance_advance {t : TimeSource} (h : t.exhausted = false) :
    t.advance.advance.next.toNat = t.next.toNat + 2 := by
  have hroom : t.next.toNat < 18446744073709551614 := by simpa [TimeSource.exhausted] using h
  have hone := toNat_saturatingNext (t := t.next) (by omega)
  have htwo := toNat_saturatingNext (t := saturatingNext t.next) (by omega)
  rw [TimeSource.advance, TimeSource.advance, htwo, hone]

/-- **The three ends of a commit.** -/
theorem commitInner_cases (P : Platform) (rules : VerifierRules) (faults : Faults)
    (signer : Option Hash256) (w : LogWriter) (s : State) (p : Proposal) :
    (¬P.IntentWritten rules faults signer w s p ∧ ∃ e intent,
        P.commitInner rules faults signer w s p =
          ⟨.error e, { w with log := { w.log with intent } }, s⟩) ∨
      (P.IntentWritten rules faults signer w s p ∧ ∃ e log, P.commitInner rules faults signer w s p =
          ⟨.error e, { w with log, recoveryRequired := true }, s⟩) ∨
      (P.IntentWritten rules faults signer w s p ∧ w.timeSource.exhausted = false ∧ ∃ x log s',
        P.commitInner rules faults signer w s p = ⟨.ok x, { w with
          log, timeSource := w.timeSource.advance.advance, recoveryRequired := false }, s'⟩) := by
  rw [Platform.commitInner]
  cases hprep : P.prepare rules signer w s p with
  | error e =>
    left
    refine ⟨?_, e, w.log.intent, rfl⟩
    rintro ⟨c, hc, -⟩
    rw [hprep] at hc
    cases hc
  | ok c =>
    dsimp only
    rw [Platform.persist]
    obtain ⟨e, i, hwrite⟩ | ⟨-, i, hwrite⟩ :=
      writeIntent_cases (P := P) w.log (faults .intent) ⟨c.subject.id, false⟩
    · -- the intent write failed
      left
      rw [hwrite]
      refine ⟨?_, e, i, rfl⟩
      rintro ⟨c', hc', hok⟩
      obtain rfl : c = c' := Except.ok.inj (hprep.symm.trans hc')
      rw [hwrite] at hok
      cases hok
    · have hintent : P.IntentWritten rules faults signer w s p := ⟨c, hprep, by rw [hwrite]⟩
      have hroom : w.timeSource.exhausted = false := (prepare_eq_ok hprep).room
      right
      rw [hwrite]
      dsimp only
      split
      · exact .inl ⟨hintent, _, _, rfl⟩
      split
      · exact .inl ⟨hintent, _, _, rfl⟩
      split
      · exact .inl ⟨hintent, _, _, rfl⟩
      · exact .inr ⟨hintent, hroom, _, _, _, rfl⟩

/-! ## Closed handles -/

section Closed

variable (hclosed : w.recoveryRequired = true)
include hclosed

theorem ensureWritable_closed : Platform.ensureWritable w = .error .recoveryRequired :=
  if_pos hclosed

theorem commitInner_closed (faults : Faults) (signer : Option Hash256) (s : State) (p : Proposal) :
    P.commitInner rules faults signer w s p = ⟨.error .recoveryRequired, w, s⟩ := by
  rw [Platform.commitInner, Platform.prepare, ensureWritable_closed hclosed]
  rfl

theorem commitEach_closed (faults : Nat → Faults) (s : State) (hne : ps ≠ []) :
    P.commitEach rules faults w s ps = ⟨.error .recoveryRequired, w, s⟩ := by
  obtain ⟨p, rest, rfl⟩ := List.exists_cons_of_ne_nil hne
  rw [Platform.commitEach, List.zipIdx_cons, runAll, Platform.commitAt, Platform.commit,
    commitInner_closed hclosed]
  rfl

theorem checkedBatchCommit_closed (faults : Nat → Faults) (head : RecordId) (s : State)
    (ps : List Proposal) :
    P.checkedBatchCommit rules faults head w s ps = ⟨.error .recoveryRequired, w, s⟩ := by
  rw [Platform.checkedBatchCommit, Platform.checkLanded, ensureWritable_closed hclosed]
  rfl

/-- A closed handle refuses every call. -/
theorem callOn_closed (hsort : P.SortsByPermuting) (s : State) {call : HandleCall}
    (hcall : call.Nonempty) : P.callOn rules w s call = ⟨.error .recoveryRequired, w, s⟩ := by
  cases call with
  | commit faults p =>
    rw [Platform.callOn, Platform.commit, commitInner_closed hclosed]
    rfl
  | commitSigned faults secret p =>
    rw [Platform.callOn, Platform.commitSigned, commitInner_closed hclosed]
    rfl
  | batchCommit faults ps =>
    have hne : P.sortBatch ps ≠ [] := by
      intro hnil
      have hperm := hsort Proposal (fun a b => decide (P.batchKey a ≤ P.batchKey b)) ps
      rw [show P.sortUnstable Proposal _ ps = [] from hnil] at hperm
      exact hcall hperm.symm.eq_nil
    rw [Platform.callOn, Platform.batchCommitWith, commitEach_closed hclosed faults s hne]
    rfl
  | checkedBatchCommit faults head ps =>
    rw [Platform.callOn, checkedBatchCommit_closed hclosed]
    rfl

theorem callOn_closed_writer (hsort : P.SortsByPermuting) (s : State) (call : HandleCall) :
    (P.callOn rules w s call).writer = w := by
  by_cases hcall : call.Nonempty
  · rw [callOn_closed hclosed hsort s hcall]
  · -- the batch of nothing
    obtain ⟨faults, rfl⟩ : ∃ faults, call = .batchCommit faults [] := by
      cases call with
      | batchCommit faults ps => exact ⟨faults, by rw [not_not.mp hcall]⟩
      | _ => exact absurd trivial hcall
    have hnil : P.sortBatch [] = [] :=
      (hsort Proposal (fun a b => decide (P.batchKey a ≤ P.batchKey b)) []).eq_nil
    rw [Platform.callOn, Platform.batchCommitWith, hnil]
    rfl

/-- A closed handle stays as it is. -/
theorem callsOn_closed (hsort : P.SortsByPermuting)
    (calls : List (VerifierRules × State × HandleCall)) : P.callsOn w calls = w := by
  induction calls with
  | nil => rfl
  | cons c calls ih =>
    rw [Platform.callsOn, List.foldl_cons, callOn_closed_writer hclosed hsort]
    exact ih

end Closed

/-- **Commit is failure-atomic.** A commit, signed or not, that fails before its first intent write
has succeeded leaves the records, the bytes of the log, the clock, the caller's state and the recovery
flag as they were. One that fails later leaves a handle on which every call, after any other calls, is
refused and appends nothing. The clock goes on by two when the commit returns `Ok`, and stays where it
is otherwise. -/
theorem commit_failure_atomic (hsort : P.SortsByPermuting) (rules : VerifierRules) (faults : Faults)
    (signer : Option Hash256) (w : LogWriter) (s : State) (p : Proposal)
    {o : Outcome (RecordId × VerdictData)} (ho : P.commitInner rules faults signer w s p = o) :
    (∀ e, o.result = .error e → ¬P.IntentWritten rules faults signer w s p →
      o.writer.log.records = w.log.records ∧ o.writer.log.file = w.log.file ∧
        o.writer.timeSource = w.timeSource ∧ o.state = s ∧
        o.writer.recoveryRequired = w.recoveryRequired) ∧
    (∀ e, o.result = .error e → P.IntentWritten rules faults signer w s p →
      ∀ calls rules' s' call, HandleCall.Nonempty call →
        P.callOn rules' (P.callsOn o.writer calls) s' call =
          ⟨.error .recoveryRequired, o.writer, s'⟩) ∧
    (∀ x, o.result = .ok x → o.writer.timeSource.next.toNat = w.timeSource.next.toNat + 2) ∧
    ∀ e, o.result = .error e → o.writer.timeSource = w.timeSource := by
  subst ho
  obtain ⟨hnot, e, intent, ho⟩ | ⟨hwritten, e, log, ho⟩ | ⟨hwritten, hroom, x, log, s', ho⟩ :=
    commitInner_cases P rules faults signer w s p
  · rw [ho]
    refine ⟨fun _ _ _ => ⟨rfl, rfl, rfl, rfl, rfl⟩, fun _ _ h => absurd h hnot, ?_, fun _ _ => rfl⟩
    intro x hx
    cases hx
  · rw [ho]
    refine ⟨fun _ _ h => absurd hwritten h, ?_, ?_, fun _ _ => rfl⟩
    · intro _ _ _ calls rules' s' call hcall
      rw [callsOn_closed rfl hsort, callOn_closed rfl hsort s' hcall]
    · intro x hx
      cases hx
  · rw [ho]
    refine ⟨?_, ?_, fun _ _ => TimeSource.advance_advance hroom, ?_⟩
    · intro e he
      cases he
    · intro e he
      cases he
    · intro e he
      cases he

/-- The append of the subject fails after three bytes. -/
def tornSubject : Faults
  | .subject => some 3
  | _ => none

theorem writePair_tornSubject (log : FileLog) (c : Prepared) :
    ∃ e log', P.writePair log tornSubject c = (.error e, log') := by
  have happend : ∃ e log', P.append log (some 3) c.subject = (.error e, log') := by
    rw [Platform.append]
    split
    · exact ⟨_, _, rfl⟩
    · exact ⟨_, _, rfl⟩
    · exact ⟨_, _, rfl⟩
  obtain ⟨e, log', h⟩ := happend
  refine ⟨e, log', ?_⟩
  rw [Platform.writePair, show tornSubject .subject = some 3 from rfl, h]

/-- The stray commit to the empty sample directory, torn in its subject: whoever comes after it has
to open the directory again. -/
theorem strayProposal_torn : ∃ e w',
    reference.commit sampleRules tornSubject sampleHandle State.empty (strayProposal 1) =
        ⟨.error e, w', State.empty⟩ ∧
      reference.callOn sampleRules w' State.empty
        (.checkedBatchCommit neverFaults emptyHead [strayProposal 1]) =
        ⟨.error .recoveryRequired, w', State.empty⟩ := by
  obtain ⟨c, hc, -⟩ := strayProposal_prepares
  obtain ⟨bytes, hbytes⟩ := canonicalJson_intent (P := reference) ⟨c.subject.id, false⟩
  have hwrite : reference.writeIntent sampleHandle.log (tornSubject .intent) ⟨c.subject.id, false⟩ =
      (.ok (), { sampleHandle.log with intent := some bytes }) := by
    show reference.writeIntent sampleHandle.log none _ = _
    simp only [Platform.writeIntent, hbytes]
  have hwritten : reference.IntentWritten sampleRules tornSubject none sampleHandle State.empty
      (strayProposal 1) := ⟨c, hc, by rw [hwrite]⟩
  obtain ⟨e, log', hpair⟩ :=
    writePair_tornSubject (P := reference) { sampleHandle.log with intent := some bytes } c
  have hcommit : reference.commitInner sampleRules tornSubject none sampleHandle State.empty
      (strayProposal 1) =
        ⟨.error e, { sampleHandle with log := log', recoveryRequired := true }, State.empty⟩ := by
    rw [Platform.commitInner, hc]
    dsimp only
    rw [Platform.persist, hwrite]
    dsimp only
    rw [hpair]
  have hlater := (commit_failure_atomic reference_sorts sampleRules tornSubject none
    sampleHandle State.empty (strayProposal 1) hcommit).2.1 e rfl hwritten []
  exact ⟨e, _, hcommit, hlater sampleRules State.empty _ trivial⟩

/-! ## The order of a batch -/

theorem runAll_zipIdx {α β : Type} (call : LogWriter → State → α → Outcome (List β)) (as : List α) :
    ∀ w s k, runAll (fun w s (a : α × Nat) => call w s a.1) w s (as.zipIdx k) = runAll call w s as := by
  induction as with
  | nil =>
    intro w s k
    rfl
  | cons a as ih =>
    intro w s k
    rw [List.zipIdx_cons, runAll, runAll]
    simp only [ih]

/-- With the same faults in all its commits, this is the batch of the writer. -/
theorem batchCommit_eq (faults : Faults) (w : LogWriter) (s : State) (ps : List Proposal) :
    P.batchCommit rules faults w s ps = P.batchCommitWith rules (fun _ => faults) w s ps :=
  (runAll_zipIdx (fun w s p => (P.commit rules faults w s p).singleton) (P.sortBatch ps) w s 0).symm

/-- **The order given by the caller does not matter.** A batch and any rearrangement of it give the
same results or the same error, and leave the same handle, with its records and its file, and the same
state, whichever writes of whichever commits fail. -/
theorem batchCommit_perm (hsort : P.SortsUnstable) (hkeys : P.CollisionFree (ps.filterMap P.canonicalJson))
    (hperm : qs.Perm ps) (rules : VerifierRules) (faults : Nat → Faults) (w : LogWriter) (s : State) :
    P.batchCommitWith rules faults w s qs = P.batchCommitWith rules faults w s ps := by
  rw [Platform.batchCommitWith, Platform.batchCommitWith, sortBatch_eq hsort hkeys hperm]

theorem collisionFree_pair {p q : Proposal} (hne : P.batchKey p ≠ P.batchKey q) :
    P.CollisionFree ([p, q].filterMap P.canonicalJson) := by
  obtain ⟨a, ha⟩ := canonicalJson_proposal (P := P) p
  obtain ⟨b, hb⟩ := canonicalJson_proposal (P := P) q
  have hab : P.sha256 a ≠ P.sha256 b := by
    intro heq
    apply hne
    simp [Platform.batchKey, Platform.sha256Canonical, ha, hb, heq]
  rw [List.filterMap_cons_some ha, List.filterMap_cons_some hb, List.filterMap_nil]
  intro x hx y hy hxy
  simp only [List.mem_cons, List.not_mem_nil, or_false] at hx hy
  grind

/-- A batch with a proposal twice, in two orders. -/
theorem strayBatch_perm :
    reference.batchCommitWith sampleRules neverFaults sampleHandle State.empty
        [strayProposal 2, strayProposal 1, strayProposal 1] =
      reference.batchCommitWith sampleRules neverFaults sampleHandle State.empty
        [strayProposal 1, strayProposal 2, strayProposal 1] := by
  have hne : reference.batchKey (strayProposal 1) ≠ reference.batchKey (strayProposal 2) := by
    decide +kernel
  have hkeys : reference.CollisionFree
      ([strayProposal 1, strayProposal 2, strayProposal 1].filterMap reference.canonicalJson) := by
    refine (collisionFree_pair hne).mono ?_
    intro bytes hbytes
    simp only [List.mem_filterMap, List.mem_cons, List.not_mem_nil, or_false] at hbytes ⊢
    obtain ⟨p, hp, hjson⟩ := hbytes
    obtain rfl | rfl | rfl := hp
    · exact ⟨_, .inl rfl, hjson⟩
    · exact ⟨_, .inr rfl, hjson⟩
    · exact ⟨_, .inl rfl, hjson⟩
  exact batchCommit_perm reference_sortsUnstable hkeys (List.Perm.swap _ _ _) sampleRules neverFaults
    sampleHandle State.empty

end Bellbook
