import Bellbook.Receipt.Validate
import Bellbook.Verify.Checkpoint

/-!
# Head attestations (`checkpoint.rs`)

A head attestation names a log by the hash of its concatenated ids, with a timestamp that has exactly
one accepted spelling. The ids bind the records and the hash binds the ids, so an attestation, like
the head hash of a report, identifies one history.
-/

namespace Bellbook

open Std

/-! ## Timestamps -/

/-- The number spelled by the ASCII digits at the positions from `i` up to `j`. -/
def digitsAt (b : Bytes) (i j : Nat) : Nat :=
  ((b.drop i).take (j - i)).foldl (fun n d => n * 10 + (d.toNat - 48)) 0

def isDigit (b : UInt8) : Bool := 48 ≤ b && b ≤ 57

/-- The positions of the digits in `YYYY-MM-DDTHH:MM:SSZ`. -/
def digitPositions : List Nat := [0, 1, 2, 3, 5, 6, 8, 9, 11, 12, 14, 15, 17, 18]

def daysInMonth (year month : Nat) : Nat :=
  let leap := (year % 4 = 0 ∧ year % 100 ≠ 0) ∨ year % 400 = 0
  if month ∈ [1, 3, 5, 7, 8, 10, 12] then 31
  else if month ∈ [4, 6, 9, 11] then 30
  else if month = 2 then (if leap then 29 else 28)
  else 0

/-- `is_canonical_rfc3339_utc`: exactly `YYYY-MM-DDTHH:MM:SSZ`, for a date of the calendar. -/
def isCanonicalRfc3339Utc (s : String) : Bool :=
  let b := utf8 s.toList
  let year := digitsAt b 0 4
  let month := digitsAt b 5 7
  let day := digitsAt b 8 10
  b.length = 20 && b[4]? = some 45 && b[7]? = some 45 && b[10]? = some 84 &&
  b[13]? = some 58 && b[16]? = some 58 && b[19]? = some 90 &&
  digitPositions.all (fun i => b[i]?.any isDigit) &&
  (1 ≤ month && month ≤ 12) && digitsAt b 11 13 ≤ 23 && digitsAt b 14 16 ≤ 59 &&
  digitsAt b 17 19 ≤ 59 && (1 ≤ day && day ≤ daysInMonth year month)

/-- A timestamp in its one accepted spelling. -/
structure CanonicalUtcTimestamp where
  text : String
  canonical : isCanonicalRfc3339Utc text = true

/-! ## Attestations -/

structure HeadAttestation where
  headHash : Hash256
  recordCount : Nat
  specVersion : String
  timestamp : CanonicalUtcTimestamp

/-- `head_attestation`. -/
def Platform.headAttestation (P : Platform) (records : List Record) (timestamp : String) :
    Option HeadAttestation :=
  if h : isCanonicalRfc3339Utc timestamp = true then
    some {
      headHash := P.sha256ConcatIds (records.map Record.id)
      recordCount := records.length
      specVersion := specVersion
      timestamp := ⟨timestamp, h⟩ }
  else none

example : isCanonicalRfc3339Utc "2024-02-29T23:59:59Z" = true := by decide +kernel

example : isCanonicalRfc3339Utc "2023-02-29T23:59:59Z" = false := by decide +kernel

variable {P : Platform} {rules rules' : VerifierRules} {L M : List Record}

theorem headAttestation_headHash {timestamp : String} {a : HeadAttestation}
    (h : P.headAttestation L timestamp = some a) :
    a.headHash = P.sha256ConcatIds (L.map Record.id) := by
  unfold Platform.headAttestation at h
  split at h
  · cases h
    rfl
  · cases h

/-- The head hash of a report that is not invalid is that of the records of the receipt. -/
theorem validateReceipt_headHash {receipt : Receipt}
    (h : (P.validateReceipt receipt).status ≠ .invalid) :
    (P.validateReceipt receipt).headHash = P.sha256ConcatIds (receipt.records.map Record.id) := by
  unfold Platform.validateReceipt at h ⊢
  cases hschemas : schemasForEpoch receipt.specVersion with
  | none => simp [hschemas, Report.structuralFailure] at h
  | some schemas =>
    cases hdecl : checkDeclarations receipt with
    | some problem => simp [hschemas, hdecl, Report.structuralFailure] at h
    | none =>
      cases hhash : P.sha256Canonical receipt.rules with
      | none => simp [hschemas, hdecl, hhash, Report.structuralFailure] at h
      | some hash => rfl

theorem validateWithLimits_headHash {limits : ValidationLimits} {bytes : Bytes} {receipt : Receipt}
    (hread : P.fromBytes bytes = some receipt)
    (h : (P.validateWithLimits limits bytes).status ≠ .invalid) :
    (P.validateWithLimits limits bytes).headHash =
      P.sha256ConcatIds (receipt.records.map Record.id) := by
  unfold Platform.validateWithLimits at h ⊢
  split at h
  · simp [Report.structuralFailure] at h
  · rename_i hsize
    rw [if_neg hsize, hread]
    rw [hread] at h
    cases hcheck : limits.check receipt with
    | some problem => simp [hcheck, Report.structuralFailure] at h
    | none =>
      simp only [hcheck] at h ⊢
      exact validateReceipt_headHash h

/-- The byte strings hashed for the heads of two logs: the canonical id forms of their records, and
their concatenated ids. -/
def Platform.headBytes (P : Platform) (L M : List Record) : List Bytes :=
  (L ++ M).filterMap P.canonicalIdForm ++
    [(L.map Record.id).flatMap hashBytes, (M.map Record.id).flatMap hashBytes]

theorem headBytes_append : P.headBytes L (L ++ M) ⊆ (L ++ M).filterMap P.canonicalIdForm ++
    [(L.map Record.id).flatMap hashBytes, ((L ++ M).map Record.id).flatMap hashBytes] := by
  unfold Platform.headBytes
  rw [List.filterMap_append, List.filterMap_append]
  intro x hx
  simp only [List.mem_append] at hx ⊢
  tauto

/-- Equal head hashes, equal logs. -/
theorem eq_of_headHash_eq (hL : P.Accepts rules L) (hM : P.Accepts rules' M)
    (hinj : P.CollisionFree (P.headBytes L M))
    (heq : P.sha256ConcatIds (L.map Record.id) = P.sha256ConcatIds (M.map Record.id)) : L = M := by
  obtain ⟨s, hv⟩ := accepts_iff.mp hL
  obtain ⟨s', hv'⟩ := accepts_iff.mp hM
  have hconcat := hinj _ (List.mem_append_right _ (by simp)) _ (List.mem_append_right _ (by simp)) heq
  refine eq_of_ids_eq hinj hv.ids hv'.ids (fun r hr form hform => ?_) (flatMap_hashBytes_inj hconcat)
  exact List.mem_append_left _ (List.mem_filterMap.mpr ⟨r, hr, hform⟩)

/-- **The head hash binds the whole log.** Two accepted logs with one head hash are equal in every field
of every record, also when they were accepted under different rules; so an attestation of a head, and
the head hash of a report, identify one history. -/
theorem head_hash_binds (hL : P.Accepts rules L) (hM : P.Accepts rules' M)
    (hinj : P.CollisionFree (P.headBytes L M)) :
    (P.sha256ConcatIds (L.map Record.id) = P.sha256ConcatIds (M.map Record.id) → L = M) ∧
      (∀ (t t' : String) (a a' : HeadAttestation), P.headAttestation L t = some a →
        P.headAttestation M t' = some a' → a.headHash = a'.headHash → L = M) ∧
      ∀ (limits limits' : ValidationLimits) (bytes bytes' : Bytes) (receipt receipt' : Receipt),
        P.fromBytes bytes = some receipt → P.fromBytes bytes' = some receipt' →
        receipt.records = L → receipt'.records = M →
        (P.validateWithLimits limits bytes).status ≠ .invalid →
        (P.validateWithLimits limits' bytes').status ≠ .invalid →
        (P.validateWithLimits limits bytes).headHash = (P.validateWithLimits limits' bytes').headHash →
        receipt.records = receipt'.records := by
  refine ⟨eq_of_headHash_eq hL hM hinj, ?_, ?_⟩
  · intro t t' a a' ha ha' heq
    rw [headAttestation_headHash ha, headAttestation_headHash ha'] at heq
    exact eq_of_headHash_eq hL hM hinj heq
  · intro limits limits' bytes bytes' receipt receipt' hr hr' hrec hrec' hstatus hstatus' heq
    rw [validateWithLimits_headHash hr hstatus, validateWithLimits_headHash hr' hstatus', hrec, hrec'] at heq
    rw [hrec, hrec']
    exact eq_of_headHash_eq hL hM hinj heq

/-- The sample log and its first pair have different heads. -/
theorem sampleLog_head_ne : reference.Accepts sampleRules sampleRound ∧
    reference.Accepts sampleRules sampleLog ∧
    reference.sha256ConcatIds (sampleRound.map Record.id) ≠
      reference.sha256ConcatIds (sampleLog.map Record.id) := by
  obtain ⟨s, hv⟩ := accepts_iff.mp sampleLog_accepts
  have hinj : reference.CollisionFree (sampleLog.filterMap reference.canonicalIdForm ++
      [(sampleRound.map Record.id).flatMap hashBytes, (sampleLog.map Record.id).flatMap hashBytes]) := by
    refine collisionFree_of_nodup ?_
    rw [List.map_append, map_sha256_forms hv.ids]
    decide +kernel
  refine ⟨sampleRound_accepts, sampleLog_accepts, fun heq => ?_⟩
  have hlogs := (head_hash_binds sampleRound_accepts sampleLog_accepts (hinj.mono headBytes_append)).1 heq
  exact absurd (congrArg List.length hlogs) (by decide)

end Bellbook
