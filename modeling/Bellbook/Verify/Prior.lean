import Mathlib.Data.List.Induction
import Bellbook.Verify.Rules

/-!
# The prior set and verdict records (`verify/verifier/verdict.rs`)

* A check returns the reason for rejection, if any. `rejectIf` and `orReject` are the two shapes
  checks are built from, and `<|>` runs one check after another; each has a lemma that says when it
  passes.
* `Prior` is the id-indexed view of the records before the one under verification, `PriorIndex`
  the owned index behind it. `priorView` is the front-to-back scan the index stands for
  (`view_of`).
* `checkVerdictRecord` verifies the envelope of a verdict.
-/

namespace Bellbook

open Std

/-! ## Checks -/

section Checks

variable {α : Type}

/-- Reject for `reason` when the condition holds. -/
def rejectIf (c : Prop) [Decidable c] (reason : ReasonCode) : Option ReasonCode :=
  if c then some reason else none

/-- Go on with the value, or reject for `reason` when there is none. -/
def orReject (o : Option α) (reason : ReasonCode) (k : α → Option ReasonCode) : Option ReasonCode :=
  match o with
  | none => some reason
  | some a => k a

@[simp] theorem rejectIf_eq_none {c : Prop} [Decidable c] {reason : ReasonCode} :
    rejectIf c reason = none ↔ ¬c := by
  simp [rejectIf]

@[simp] theorem orReject_eq_none {o : Option α} {reason : ReasonCode} {k : α → Option ReasonCode} :
    orReject o reason k = none ↔ ∃ a, o = some a ∧ k a = none := by
  cases o <;> simp [orReject]

@[simp] theorem orElse_none_iff {a b : Option ReasonCode} :
    (a <|> b) = none ↔ a = none ∧ b = none := by
  cases a <;> simp

theorem orReject_congr {o o' : Option α} {reason : ReasonCode} {k k' : α → Option ReasonCode}
    (ho : o = o') (hk : ∀ a, o = some a → k a = k' a) :
    orReject o reason k = orReject o' reason k' := by
  subst ho
  cases o with
  | none => rfl
  | some a => exact hk a rfl

theorem orElse_congr {a a' b b' : Option ReasonCode} (ha : a = a') (hb : a = none → b = b') :
    (a <|> b) = (a' <|> b') := by
  subst ha
  cases a with
  | none => simpa using hb rfl
  | some r => rfl

theorem findSome?_congr {l : List α} {f g : α → Option ReasonCode} (h : ∀ a ∈ l, f a = g a) :
    l.findSome? f = l.findSome? g := by
  induction l with
  | nil => rfl
  | cons a l ih =>
    rw [List.findSome?_cons, List.findSome?_cons, h a List.mem_cons_self,
      ih fun b hb => h b (List.mem_cons_of_mem _ hb)]

end Checks

/-! ## The prior set -/

/-- Lookups in the records before the one under verification. -/
structure Prior where
  find : RecordId → Option Record
  hasVerdictFor : RecordId → Bool

structure PriorIndex where
  byId : IdMap Nat := ∅
  verdictedSubjects : IdSet := ∅

/-- Whether the record is a verdict with a Cause ref to `subject`. -/
def Record.judges (r : Record) (subject : RecordId) : Bool :=
  r.kind = .verdict && subject ∈ refTargets .cause r.refs

namespace PriorIndex

/-- `PriorIndex::insert`: first occurrence wins. -/
def insert (index : PriorIndex) (pos : Nat) (r : Record) : PriorIndex where
  byId := index.byId.insertIfNew r.id pos
  verdictedSubjects :=
    if r.kind = .verdict then
      (refTargets .cause r.refs).foldl ExtTreeSet.insert index.verdictedSubjects
    else index.verdictedSubjects

/-- Index the records, the first of them sitting at `pos`. -/
def insertAll (index : PriorIndex) (pos : Nat) : List Record → PriorIndex
  | [] => index
  | r :: rest => insertAll (index.insert pos r) (pos + 1) rest

/-- `PriorIndex::of`. -/
def of (records : List Record) : PriorIndex := ({} : PriorIndex).insertAll 0 records

/-- `PriorIndex::view`. -/
def view (index : PriorIndex) (records : List Record) : Prior where
  find id := index.byId[id]?.bind fun pos => records[pos]?
  hasVerdictFor id := id ∈ index.verdictedSubjects

theorem insertAll_append (index : PriorIndex) (pos : Nat) (l l' : List Record) :
    index.insertAll pos (l ++ l') = (index.insertAll pos l).insertAll (pos + l.length) l' := by
  induction l generalizing index pos with
  | nil => rfl
  | cons r l ih =>
    rw [List.cons_append, insertAll, insertAll, ih, List.length_cons]
    congr 1
    omega

theorem of_append (l l' : List Record) : of (l ++ l') = (of l).insertAll l.length l' := by
  rw [of, insertAll_append, of, Nat.zero_add]

theorem of_concat (l : List Record) (r : Record) : of (l ++ [r]) = (of l).insert l.length r :=
  of_append l [r]

end PriorIndex

/-- A front-to-back scan of the records. -/
def priorView (records : List Record) : Prior where
  find id := records.find? fun r => r.id = id
  hasVerdictFor id := records.any fun r => r.judges id

theorem mem_foldl_insert {α : Type} [Ord α] [TransOrd α] [LawfulEqOrd α] {l : List α}
    {s : ExtTreeSet α} {a : α} : a ∈ l.foldl ExtTreeSet.insert s ↔ a ∈ s ∨ a ∈ l := by
  induction l generalizing s with
  | nil => simp
  | cons b l ih =>
    rw [List.foldl_cons, ih, Worklist.mem_insert_iff, List.mem_cons]
    tauto

namespace PriorIndex

theorem mem_verdictedSubjects_insert {index : PriorIndex} {pos : Nat} {r : Record} {id : RecordId} :
    id ∈ (index.insert pos r).verdictedSubjects ↔
      id ∈ index.verdictedSubjects ∨ r.judges id = true := by
  unfold insert Record.judges
  by_cases hk : r.kind = .verdict
  · simp [hk, mem_foldl_insert]
  · simp [hk]

theorem byId_of (l : List Record) (id : RecordId) :
    (of l).byId[id]? = l.findIdx? fun r => r.id = id := by
  induction l using List.reverseRecOn with
  | nil => simp [of, insertAll]
  | append_singleton l r ih =>
    rw [of_concat, insert, ExtTreeMap.getElem?_insertIfNew, List.findIdx?_append, ← ih]
    by_cases hmem : r.id ∈ (of l).byId
    · by_cases hid : r.id = id
      · subst hid
        simp [hmem]
      · simp [hmem, hid]
    · by_cases hid : r.id = id
      · subst hid
        simp [hmem]
      · simp [hid]

theorem mem_verdictedSubjects_of (l : List Record) (id : RecordId) :
    id ∈ (of l).verdictedSubjects ↔ l.any (fun r => r.judges id) = true := by
  induction l using List.reverseRecOn with
  | nil => simp [of, insertAll]
  | append_singleton l r ih =>
    rw [of_concat, mem_verdictedSubjects_insert, ih]
    simp [List.any_append]

/-- **The index is the scan**: a view of an index over a prefix, in the whole sequence. -/
theorem view_of (l l' : List Record) : (of l).view (l ++ l') = priorView l := by
  unfold view priorView
  congr 1
  · funext id
    rw [byId_of]
    cases h : l.findIdx? (fun r => r.id = id) with
    | none =>
      rw [List.findIdx?_eq_none_iff] at h
      symm
      simpa [List.find?_eq_none] using h
    | some pos =>
      rw [List.findIdx?_eq_some_iff_getElem] at h
      obtain ⟨hlt, hpos, hbefore⟩ := h
      symm
      rw [Option.bind_some, List.getElem?_append_left hlt, List.getElem?_eq_getElem hlt,
        List.find?_eq_some_iff_getElem]
      exact ⟨hpos, pos, hlt, rfl, fun j hj => by simpa using hbefore j hj⟩
  · funext id
    rw [Bool.eq_iff_iff, decide_eq_true_iff]
    exact mem_verdictedSubjects_of l id

end PriorIndex

/-! ## Verdict records -/

namespace Platform

variable (P : Platform)

/-- `decodes_canonically`: the bytes are the canonical serialization of a payload. -/
def decodesCanonically (α : Type) [Serialize α] [Deserialize α] (data : Bytes) : Bool :=
  match P.decode α data with
  | some value => P.canonicalJson value = some data
  | none => false

/-- `check_verdict_record`. -/
def checkVerdictRecord (rules : VerifierRules) (prior : Prior) (r : Record) : Option ReasonCode :=
  rejectIf (P.computeId r ≠ some r.id) .invalidPayload <|>
  rejectIf (r.schema ≠ P.schemaId schemaVerdict) .kindSchemaMismatch <|>
  rejectIf (r.author.type ≠ .verifier) .invalidPayload <|>
  rejectIf (r.author.signature ≠ none) .invalidPayload <|>
  rejectIf (r.space ≠ rules.space) .invalidPayload <|>
  rejectIf (r.evidence ≠ .deterministic) .invalidPayload <|>
  rejectIf (P.decodesCanonically VerdictData r.data = false) .invalidPayload <|>
  match r.refs with
  | [ref] =>
    rejectIf (ref.type ≠ .cause) .invalidPayload <|>
    orReject (prior.find ref.target) .refUnresolved fun subject =>
      rejectIf (subject.kind = .verdict) .invalidPayload <|>
      rejectIf (subject.space ≠ r.space ∨ subject.thread ≠ r.thread) .invalidPayload <|>
      rejectIf (prior.hasVerdictFor ref.target = true) .invalidPayload
  | _ => some .invalidPayload

/-- What `checkVerdictRecord` establishes of a verdict of `subject`. -/
structure ValidVerdict (rules : VerifierRules) (subject verdict : Record) : Prop where
  id : P.computeId verdict = some verdict.id
  schema : verdict.schema = P.schemaId schemaVerdict
  authorType : verdict.author.type = .verifier
  unsigned : verdict.author.signature = none
  rulesSpace : verdict.space = rules.space
  space : verdict.space = subject.space
  thread : verdict.thread = subject.thread
  evidence : verdict.evidence = .deterministic
  data : P.decodesCanonically VerdictData verdict.data = true
  refs : verdict.refs = [⟨.cause, subject.id⟩]

theorem checkVerdictRecord_eq_none {P : Platform} {rules : VerifierRules} {prior : Prior}
    {r : Record} :
    P.checkVerdictRecord rules prior r = none ↔
      ∃ subject id, prior.find id = some subject ∧
        P.ValidVerdict rules { subject with id := id } r ∧ subject.kind ≠ .verdict ∧
        prior.hasVerdictFor id = false := by
  unfold checkVerdictRecord
  simp only [orElse_none_iff, rejectIf_eq_none, not_not]
  constructor
  · rintro ⟨h1, h2, h3, h4, h5, h6, h7, h8⟩
    split at h8
    · next ref href =>
      simp only [orElse_none_iff, rejectIf_eq_none, not_not, orReject_eq_none, not_or,
        Bool.not_eq_true] at h8
      obtain ⟨hcause, subject, hfind, hkind, ⟨hspace, hthread⟩, hdup⟩ := h8
      refine ⟨subject, ref.target, hfind, ?_, hkind, hdup⟩
      exact ⟨h1, h2, h3, h4, h5, hspace.symm, hthread.symm, h6, by simpa using h7,
        by rw [href, ← hcause]⟩
    · cases h8
  · rintro ⟨subject, id, hfind, hv, hkind, hdup⟩
    have hrefs : r.refs = [⟨.cause, id⟩] := hv.refs
    refine ⟨hv.id, hv.schema, hv.authorType, hv.unsigned, hv.rulesSpace, hv.evidence,
      by simp [hv.data], ?_⟩
    have hs : subject.space = r.space := hv.space.symm
    have ht : subject.thread = r.thread := hv.thread.symm
    simp [hrefs, hfind, hkind, hdup, hs, ht]

end Platform

end Bellbook
