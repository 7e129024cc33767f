import Mathlib.Data.List.Sort
import Bellbook.Log.Batch
import Bellbook.Log.Reader
import Bellbook.Verify.Evidence

/-!
# What the writer assigns (`log/writer/core.rs`)

The writer derives the evidence of a record from the refs as the proposal spells them, with the index
of its log, in which the last occurrence of an id wins; the verifier derives it from the stored refs,
with an index in which the first wins.

* The stored refs are strictly sorted, and depend only on which refs there are
  (`sortAndDedupRefs_eq`).
* So does the evidence (`deriveEvidence_congr`), and the two indices find the same records
  (`get_eq_find`).
-/

namespace Bellbook

open Std

/-! ## Refs -/

section Dedup

variable {α : Type} [DecidableEq α]

@[simp] theorem mem_dedupAdjacent {a : α} {l : List α} : a ∈ dedupAdjacent l ↔ a ∈ l := by
  fun_induction dedupAdjacent l with
  | case1 b rest ih => simp [ih]
  | case2 b c rest hne ih => simp [ih]
  | case3 l hl => rfl

/-- What is left of a sorted list is strictly sorted. -/
theorem pairwise_dedupAdjacent {le : α → α → Prop} (hanti : ∀ a b, le a b → le b a → a = b) {l : List α}
    (h : l.Pairwise le) : (dedupAdjacent l).Pairwise fun a b => le a b ∧ a ≠ b := by
  fun_induction dedupAdjacent l with
  | case1 b rest ih => exact ih h.tail
  | case2 b c rest hne ih =>
    refine List.pairwise_cons.mpr ⟨?_, ih h.tail⟩
    intro x hx
    rw [mem_dedupAdjacent] at hx
    have hbx := (List.pairwise_cons.mp h).1 x hx
    refine ⟨hbx, ?_⟩
    rintro rfl
    -- `b` again behind `c`: then it is `c`
    have hbc := (List.pairwise_cons.mp h).1 c List.mem_cons_self
    rcases List.mem_cons.mp hx with rfl | hx
    · exact hne rfl
    · exact hne (hanti _ _ hbc ((List.pairwise_cons.mp h.tail).1 _ hx))
  | case3 l hl =>
    match l, hl with
    | [], _ => exact .nil
    | [b], _ => exact List.pairwise_singleton _ _
    | b :: c :: rest, hl => exact absurd rfl (hl b c rest)

end Dedup

theorem adjacentAll_of_pairwise {α : Type} {p : α → α → Bool} {l : List α}
    (h : l.Pairwise fun a b => p a b = true) : adjacentAll p l = true := by
  fun_induction adjacentAll p l with
  | case1 a b rest ih =>
    rw [Bool.and_eq_true]
    exact ⟨(List.pairwise_cons.mp h).1 b List.mem_cons_self, ih h.tail⟩
  | case2 l hl => rfl

theorem RefType.ordinal_inj {a b : RefType} (h : a.ordinal = b.ordinal) : a = b := by
  revert h
  cases a <;> cases b <;> decide

theorem Ref.ext_ordinal {a b : Ref} (htype : a.type.ordinal = b.type.ordinal)
    (htarget : a.target = b.target) : a = b := by
  obtain ⟨ta, xa⟩ := a
  obtain ⟨tb, xb⟩ := b
  obtain rfl : ta = tb := RefType.ordinal_inj htype
  obtain rfl : xa = xb := htarget
  rfl

theorem Ref.le_total (a b : Ref) : Ref.le a b ∨ Ref.le b a := by
  simp only [Ref.le, BitVec.le_def]
  omega

theorem Ref.le_trans {a b c : Ref} (hab : Ref.le a b) (hbc : Ref.le b c) : Ref.le a c := by
  simp only [Ref.le, BitVec.le_def] at *
  omega

theorem Ref.le_antisymm {a b : Ref} (hab : Ref.le a b) (hba : Ref.le b a) : a = b := by
  simp only [Ref.le, BitVec.le_def] at hab hba
  exact Ref.ext_ordinal (by omega) (BitVec.eq_of_toNat_eq (by omega))

theorem Ref.lt_iff {a b : Ref} : Ref.lt a b ↔ Ref.le a b ∧ a ≠ b := by
  constructor
  · intro hlt
    refine ⟨?_, ?_⟩
    · simp only [Ref.lt, Ref.le, BitVec.lt_def, BitVec.le_def] at *
      omega
    · rintro rfl
      simp only [Ref.lt, BitVec.lt_def] at hlt
      omega
  · rintro ⟨hle, hne⟩
    by_contra hlt
    refine hne (Ref.le_antisymm hle ?_)
    simp only [Ref.lt, Ref.le, BitVec.lt_def, BitVec.le_def] at *
    omega

instance : Std.Total Ref.le := ⟨Ref.le_total⟩
instance : IsTrans Ref Ref.le := ⟨fun _ _ _ => Ref.le_trans⟩

instance : Std.Antisymm Ref.lt := ⟨fun _ _ hab hba => Ref.le_antisymm (Ref.lt_iff.mp hab).1 (Ref.lt_iff.mp hba).1⟩
instance : Std.Irrefl Ref.lt := ⟨fun _ h => (Ref.lt_iff.mp h).2 rfl⟩

theorem mem_sortAndDedupRefs {refs : List Ref} {ref : Ref} :
    ref ∈ sortAndDedupRefs refs ↔ ref ∈ refs := by
  rw [sortAndDedupRefs, mem_dedupAdjacent, List.mem_insertionSort]

theorem sortAndDedupRefs_pairwise (refs : List Ref) : (sortAndDedupRefs refs).Pairwise Ref.lt := by
  refine (pairwise_dedupAdjacent (fun _ _ => Ref.le_antisymm) (List.pairwise_insertionSort Ref.le refs)).imp ?_
  intro a b h
  exact Ref.lt_iff.mpr h

/-- The stored refs depend only on which refs there are. -/
theorem sortAndDedupRefs_eq {refs refs' : List Ref} (h : ∀ ref, ref ∈ refs ↔ ref ∈ refs') :
    sortAndDedupRefs refs = sortAndDedupRefs refs' := by
  refine (sortAndDedupRefs_pairwise refs).eq_of_mem_iff (sortAndDedupRefs_pairwise refs') ?_
  intro ref
  rw [mem_sortAndDedupRefs, mem_sortAndDedupRefs, h]

/-! ## Evidence -/

variable {P : Platform}

/-- The derived evidence depends only on which contributions there are. -/
theorem deriveEvidence_congr (schema : Hash256) {es es' : List Evidence} (h : ∀ e, e ∈ es ↔ e ∈ es') :
    P.deriveEvidence schema es = P.deriveEvidence schema es' := by
  have hes := deriveEvidence_isGreatest (P := P) schema es
  simp only [h] at hes
  exact hes.unique (deriveEvidence_isGreatest schema es')

theorem refEvidences_mem_congr {find find' : RecordId → Option Record} (hfind : ∀ id, find id = find' id)
    (s : State) {refs refs' : List Ref} (h : ∀ ref, ref ∈ refs ↔ ref ∈ refs') (e : Evidence) :
    e ∈ Platform.refEvidences find s refs ↔ e ∈ Platform.refEvidences find' s refs' := by
  obtain rfl : find = find' := funext hfind
  simp only [Platform.refEvidences, List.mem_filterMap, h]

/-! ## Lookups -/

section Lookups

variable {rules : VerifierRules} {L : List Record} {w : LogWriter} {s : State} {p q : Proposal}
  {signer : Option Hash256}

theorem positionIndex_lt {L : List Record} {id : RecordId} {pos : Nat}
    (h : (positionIndex L)[id]? = some pos) : pos < L.length := by
  induction L using List.reverseRecOn with
  | nil => simp [positionIndex] at h
  | append_singleton L r ih =>
    rw [positionIndex_concat, ExtTreeMap.getElem?_insert] at h
    rw [List.length_append, List.length_singleton]
    split at h
    · cases h
      exact Nat.lt_succ_self _
    · exact Nat.lt_succ_of_lt (ih h)

/-- The position index finds the last record with an id. -/
theorem positionIndex_get (L : List Record) (id : RecordId) :
    ((positionIndex L)[id]?.bind fun pos => L[pos]?) = L.reverse.find? fun r => r.id = id := by
  induction L using List.reverseRecOn with
  | nil => simp [positionIndex]
  | append_singleton L r ih =>
    rw [positionIndex_concat, ExtTreeMap.getElem?_insert, List.reverse_append, List.reverse_singleton,
      List.singleton_append, List.find?_cons, ← ih]
    by_cases hid : r.id = id
    · simp [hid]
    · have hcmp : compare r.id id ≠ .eq := fun h => hid (LawfulEqOrd.compare_eq_iff_eq.mp h)
      rw [if_neg hcmp, decide_eq_false hid]
      cases hpos : (positionIndex L)[id]? with
      | none => rfl
      | some pos => simp [List.getElem?_append_left (positionIndex_lt hpos)]

/-- **The two indices agree**, where an id stands for one record. -/
theorem get_eq_find (hindex : w.log.Indexed) (hids : ∀ r ∈ w.log.records, P.computeId r = some r.id)
    (hs : P.HashSound w.log.records) (id : RecordId) :
    w.log.get id = ((PriorIndex.of w.log.records).view w.log.records).find id := by
  have hview := PriorIndex.view_of w.log.records []
  rw [List.append_nil] at hview
  rw [hview, FileLog.get, hindex, positionIndex_get]
  show _ = w.log.records.find? fun r => r.id = id
  cases hlast : w.log.records.reverse.find? fun r => r.id = id with
  | none =>
    rw [List.find?_eq_none] at hlast
    symm
    rw [List.find?_eq_none]
    intro r hr
    exact hlast r (List.mem_reverse.mpr hr)
  | some r =>
    have hr := List.mem_reverse.mp (List.mem_of_find?_eq_some hlast)
    have hid : r.id = id := by simpa using List.find?_some hlast
    cases hfirst : w.log.records.find? fun r => r.id = id with
    | none =>
      rw [List.find?_eq_none] at hfirst
      exact absurd (decide_eq_true hid) (hfirst r hr)
    | some r' =>
      have hr' := List.mem_of_find?_eq_some hfirst
      have hid' : r'.id = id := by simpa using List.find?_some hfirst
      rw [hs.eq_of_id_eq hr hr' (hids r hr) (hids r' hr') (hid.trans hid'.symm)]

/-- The ids in the log of a usable handle are computed ones. -/
theorem Opened.ids (h : Opened P w) :
    w.recoveryRequired = false → ∀ r ∈ w.log.records, P.computeId r = some r.id := by
  induction h with
  | opened hopen =>
    obtain ⟨s, hv⟩ := accepts_iff.mp (openWithMaxBytes_indexed hopen).2.1
    exact fun _ => hv.writerLog.ids
  | @call w rules faults signer s p _ ih =>
    generalize ho : P.commitInner rules faults signer w s p = o
    obtain ⟨result, w', s'⟩ := o
    intro husable r hr
    cases result with
    | ok x =>
      obtain ⟨c, -, hc⟩ := commitInner_eq_ok ho
      obtain ⟨t, -, hverdict⟩ := hc.record
      rw [show (⟨.ok x, w', s'⟩ : Outcome _).writer = w' from rfl, hc.records] at hr
      simp only [List.mem_append, List.mem_cons, List.not_mem_nil, or_false] at hr
      obtain hr | rfl | rfl := hr
      · exact ih hc.usable r hr
      · exact hc.id
      · exact (materializeVerdict_eq_some hverdict).1
    | error e =>
      obtain ⟨hrecords, -, hflag⟩ | hflag := commitInner_eq_error ho
      · rw [show (⟨.error e, w', s'⟩ : Outcome _).writer = w' from rfl, hrecords] at hr
        exact ih (hflag ▸ husable) r hr
      · rw [show (⟨.error e, w', s'⟩ : Outcome _).writer = w' from rfl, hflag] at husable
        cases husable

end Lookups

/-! ## The materialized record -/

/-- The record a commit materializes: with its signature, if there is a signer, and its id. -/
def Platform.materialized (P : Platform) (signer : Option Hash256) (w : LogWriter) (s : State)
    (p : Proposal) : Option Record :=
  (P.attachSignature signer (P.materialize w s p)).bind P.withComputedId

section Materialized

variable {rules : VerifierRules} {w : LogWriter} {s : State} {p q : Proposal}
  {signer : Option Hash256} {c : Prepared} {subject : Record}

/-- It is the one the commit writes. -/
theorem materialized_of_prepare (h : P.prepare rules signer w s p = .ok c) :
    P.materialized signer w s p = some c.subject := by
  simp only [Platform.prepare, Platform.preparePair, bind_eq_ok, orSerde_eq_ok, pure, Except.pure,
    Except.ok.injEq] at h
  obtain ⟨-, -, -, -, -, -, -, -, -, -, signed, hsigned, subject, hsubject, -, -, -, -, rfl⟩ := h
  rw [Platform.materialized, hsigned, Option.bind_some, hsubject]

theorem attachSignature_fields {r r' : Record} (h : P.attachSignature signer r = some r') :
    r'.refs = r.refs ∧ r'.schema = r.schema ∧ r'.evidence = r.evidence := by
  cases signer with
  | none =>
    cases h
    exact ⟨rfl, rfl, rfl⟩
  | some secret =>
    obtain ⟨sig, -, rfl⟩ := Option.map_eq_some_iff.mp h
    exact ⟨rfl, rfl, rfl⟩

/-- What the record has from its proposal and from the log. -/
theorem materialized_eq_some (h : P.materialized signer w s p = some subject) :
    P.computeId subject = some subject.id ∧ subject.refs = sortAndDedupRefs p.refs ∧
      subject.schema = p.schema ∧
      subject.evidence = P.deriveEvidence p.schema (Platform.refEvidences w.log.get s p.refs) := by
  obtain ⟨signed, hsigned, hsubject⟩ := Option.bind_eq_some_iff.mp h
  obtain ⟨hid, heq⟩ := withComputedId_eq_some.mp hsubject
  obtain ⟨hrefs, hschema, hevidence⟩ := attachSignature_fields hsigned
  rw [heq]
  exact ⟨heq ▸ hid, hrefs, hschema, hevidence⟩

/-- The spelling of the refs does not matter to the record. -/
theorem materialize_congr (w : LogWriter) (s : State) (heq : q = { p with refs := q.refs })
    (hrefs : ∀ ref, ref ∈ q.refs ↔ ref ∈ p.refs) : P.materialize w s q = P.materialize w s p := by
  have hsame : ∀ e, e ∈ Platform.refEvidences w.log.get s q.refs ↔
      e ∈ Platform.refEvidences w.log.get s p.refs := refEvidences_mem_congr (fun _ => rfl) s hrefs
  have hevidence := deriveEvidence_congr (P := P) p.schema hsame
  rw [heq]
  simp only [Platform.materialize, sortAndDedupRefs_eq hrefs, hevidence]

/-- **What the writer assigns never causes rejection, and the spelling of refs does not matter.** The
record a commit on a usable handle materializes has the id that is computed from it, strictly sorted
refs, and the evidence that the verifier derives from these refs. Proposals that differ in the order
and the multiplicity of their refs lead a commit to the same outcome: results, handle and state. -/
theorem materialized_passes (hopened : Opened P w) (husable : w.recoveryRequired = false)
    (hs : P.HashSound w.log.records) (signer : Option Hash256) (s : State) (p : Proposal) :
    (∀ subject, P.materialized signer w s p = some subject →
      P.computeId subject = some subject.id ∧
        adjacentAll (fun a b => decide (Ref.lt a b)) subject.refs = true ∧
        subject.evidence = P.deriveEvidence subject.schema (Platform.refEvidences
          ((PriorIndex.of w.log.records).view w.log.records).find s subject.refs)) ∧
    ∀ q : Proposal, q = { p with refs := q.refs } → (∀ ref, ref ∈ q.refs ↔ ref ∈ p.refs) →
      ∀ rules faults, P.commitInner rules faults signer w s q =
        P.commitInner rules faults signer w s p := by
  constructor
  · intro subject hsubject
    obtain ⟨hid, hrefs, hschema, hevidence⟩ := materialized_eq_some hsubject
    refine ⟨hid, ?_, ?_⟩
    · rw [hrefs]
      refine adjacentAll_of_pairwise ((sortAndDedupRefs_pairwise p.refs).imp ?_)
      intro a b hab
      exact decide_eq_true hab
    · rw [hevidence, hschema, hrefs]
      refine deriveEvidence_congr p.schema (refEvidences_mem_congr ?_ s ?_)
      · exact get_eq_find hopened.indexed (hopened.ids husable) hs
      · intro ref
        exact mem_sortAndDedupRefs.symm
  · intro q heq hrefs rules faults
    have hmat := materialize_congr (P := P) w s heq hrefs
    rw [Platform.commitInner, Platform.commitInner, Platform.prepare, Platform.prepare,
      Platform.preparePair, Platform.preparePair, hmat]

end Materialized

/-- A proposal whose refs name the rejected subject of the stray log, in two spellings. -/
def strayFollowUp (refs : List RefType) : Proposal :=
  { strayProposal 1 with
    refs := refs.map fun type => ⟨type, 0xcc29c262493278091234edfea2047a596839f3b036c36496b7686631721ca8b2⟩ }

theorem strayFollowUp_passes : ∃ w, Opened reference w ∧ w.log.records = strayLog ∧
    (∀ s subject, reference.materialized none w s (strayFollowUp [.use, .cause, .use]) = some subject →
      reference.computeId subject = some subject.id ∧
        subject.evidence = reference.deriveEvidence subject.schema (Platform.refEvidences
          ((PriorIndex.of strayLog).view strayLog).find s subject.refs)) ∧
    ∀ s, reference.commit sampleRules noFaults w s (strayFollowUp [.cause, .use]) =
      reference.commit sampleRules noFaults w s (strayFollowUp [.use, .cause, .use]) := by
  obtain ⟨file, w, -, hopen, hrecords, -⟩ := strayLog_opens
  have hopened : Opened reference w := .opened hopen
  have husable : w.recoveryRequired = false := (openWithMaxBytes_indexed hopen).2.2
  have hs : reference.HashSound w.log.records := hrecords ▸ strayLog_hashSound
  refine ⟨w, hopened, hrecords, ?_, ?_⟩
  · intro s subject hsubject
    have hpass := (materialized_passes hopened husable hs none s _).1 subject hsubject
    rw [hrecords] at hpass
    exact ⟨hpass.1, hpass.2.2⟩
  · intro s
    refine (materialized_passes hopened husable hs none s _).2 _ rfl ?_ sampleRules noFaults
    intro ref
    simp only [strayFollowUp, List.map_cons, List.map_nil, List.mem_cons, List.not_mem_nil, or_false]
    tauto

end Bellbook
