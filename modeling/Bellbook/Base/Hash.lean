import Bellbook.Base.ReadBack

/-!
# Digests and the platform (`base/hash.rs`, `base/schema.rs`)

`Hash256` is the source's `[u8; 32]`, read as a big-endian number: comparing the numbers is
comparing the byte arrays. It is the one identifier representation of the ledger (record, space,
thread, scope and schema ids).

`Platform` collects what the crate takes from outside its repository: SHA-256, the JSON reader,
the printer of doubles, Ed25519, and the two places where the standard library leaves an order
unspecified (hash-map iteration, ties of an unstable sort). Everything below is parametric in it.
-/

namespace Bellbook

abbrev Hash256 := BitVec 256

instance : Std.TransOrd Hash256 := BitVec.instTransOrd
instance : Std.LawfulEqOrd Hash256 := BitVec.instLawfulEqOrd
instance : LawfulBEq Hash256 := instLawfulBEq

/-- The `n` low bytes of a number, most significant first. -/
def beBytes : Nat → Nat → Bytes
  | 0, _ => []
  | n + 1, x => UInt8.ofNat (x / 256 ^ n % 256) :: beBytes n x

@[simp] theorem length_beBytes (n x : Nat) : (beBytes n x).length = n := by
  induction n with
  | zero => rfl
  | succ n ih => simp [beBytes, ih]

theorem beBytes_inj {n x y : Nat} (h : beBytes n x = beBytes n y) :
    x % 256 ^ n = y % 256 ^ n := by
  induction n with
  | zero => simp [Nat.mod_one]
  | succ n ih =>
    simp only [beBytes, List.cons.injEq] at h
    have hd : x / 256 ^ n % 256 = y / 256 ^ n % 256 := by
      have := congrArg UInt8.toNat h.1
      simpa using this
    rw [Nat.mod_pow_succ, Nat.mod_pow_succ, ih h.2, hd]

/-- The 32 bytes of a digest. -/
def hashBytes (h : Hash256) : Bytes := beBytes 32 h.toNat

@[simp] theorem length_hashBytes (h : Hash256) : (hashBytes h).length = 32 := length_beBytes _ _

theorem hashBytes_inj {h h' : Hash256} (heq : hashBytes h = hashBytes h') : h = h' := by
  have := beBytes_inj heq
  apply BitVec.eq_of_toNat_eq
  rwa [Nat.mod_eq_of_lt (by have := h.isLt; simpa using this),
    Nat.mod_eq_of_lt (by have := h'.isLt; simpa using this)] at this

/-- The digest with the given bytes; there is one exactly for 32 bytes. -/
def hashOfBytes (bs : Bytes) : Option Hash256 :=
  if bs.length = 32 then some (BitVec.ofNat 256 (bs.foldl (fun acc b => acc * 256 + b.toNat) 0))
  else none

/-! ## Hex -/

def hexChar (n : Nat) : Char := Nat.digitChar n

/-- `hex_encode`: 64 lowercase hex characters. -/
def hexEncode (h : Hash256) : String :=
  String.ofList ((hashBytes h).flatMap fun b => [hexChar (b.toNat / 16), hexChar (b.toNat % 16)])

/-- The source's `nibble`: lowercase only. -/
def nibble (c : Char) : Option Nat :=
  if '0' ≤ c ∧ c ≤ '9' then some (c.toNat - 48)
  else if 'a' ≤ c ∧ c ≤ 'f' then some (c.toNat - 87)
  else none

def hexPairs : List Char → Option Bytes
  | [] => some []
  | a :: b :: rest =>
    (nibble a).bind fun hi => (nibble b).bind fun lo =>
      (hexPairs rest).map (UInt8.ofNat (hi * 16 + lo) :: ·)
  | _ => none

/-- `hex_decode`: exactly 64 lowercase hex characters, one accepted spelling per digest. -/
def hexDecode (s : String) : Option Hash256 := (hexPairs s.toList).bind hashOfBytes

/-! ## The platform -/

/-- What the program uses from outside its repository. -/
structure Platform where
  /-- SHA-256 (`sha2`). -/
  sha256 : Bytes → Hash256
  /-- The tree of a JSON text (`serde_json`), before any type is imposed on it. -/
  readJson : Bytes → Option Json
  /-- ECMAScript text of a finite double (`ryu_js`). -/
  formatFinite : UInt64 → List Char
  /-- Strict Ed25519 verification: public key, message, 64 signature bytes (`ed25519_dalek`). -/
  verifyStrict : Hash256 → Bytes → Bytes → Bool
  /-- The public key of an Ed25519 secret. -/
  publicKey : Hash256 → Hash256
  /-- The 64 signature bytes an Ed25519 secret makes over a message. -/
  signBytes : Hash256 → Bytes → Bytes
  /-- The order in which a hash map holding these keys iterates. -/
  hashOrder : (α : Type) → List α → List α
  /-- `sort_unstable_by` for a total preorder: some sorted arrangement. -/
  sortUnstable : (α : Type) → (α → α → Bool) → List α → List α

namespace Platform

variable (P : Platform)

/-- `sha256_utf8`. -/
def sha256Utf8 (s : String) : Hash256 := P.sha256 (utf8 s.toList)

/-- `schema_id`: the hash of a frozen schema name. -/
def schemaId (name : String) : Hash256 := P.sha256Utf8 name

/-- `sha256_concat_ids`. -/
def sha256ConcatIds (ids : List Hash256) : Hash256 := P.sha256 (ids.flatMap hashBytes)

end Platform

/-- Concatenated ids determine the list of ids: every id is 32 bytes long. -/
theorem flatMap_hashBytes_inj {xs ys : List Hash256}
    (h : xs.flatMap hashBytes = ys.flatMap hashBytes) : xs = ys := by
  induction xs generalizing ys with
  | nil =>
    cases ys with
    | nil => rfl
    | cons y ys =>
      have := congrArg List.length h
      simp only [List.flatMap_nil, List.flatMap_cons, List.length_nil, List.length_append,
        length_hashBytes] at this
      omega
  | cons x xs ih =>
    cases ys with
    | nil =>
      have := congrArg List.length h
      simp only [List.flatMap_nil, List.flatMap_cons, List.length_nil, List.length_append,
        length_hashBytes] at this
      omega
    | cons y ys =>
      simp only [List.flatMap_cons] at h
      obtain ⟨hx, hxs⟩ := List.append_inj h (by simp)
      rw [hashBytes_inj hx, ih hxs]

/-! ## Frozen schema names -/

def schemaRequest : String := "bellbook.request.v1"
def schemaAction : String := "bellbook.action.v1"
def schemaResponse : String := "bellbook.response.v1"
def schemaResult : String := "bellbook.result.v1"
def schemaResultExternal : String := "bellbook.result.external_receipt.v1"
def schemaResultEffectConfirmation : String := "bellbook.result.effect_confirmation.v1"
def schemaCapability : String := "bellbook.capability.v1"
def schemaApproval : String := "bellbook.approval.v1"
def schemaSummary : String := "bellbook.summary.v1"
def schemaRefusal : String := "bellbook.refusal.v1"
def schemaUsage : String := "bellbook.usage.v1"
def schemaVerdict : String := "bellbook.verdict.v1"
def schemaPlan : String := "bellbook.plan.v1"
def schemaRetraction : String := "bellbook.retraction.v1"
def schemaCandidate : String := "bellbook.candidate.v1"
def schemaEvaluation : String := "bellbook.evaluation.v1"
def schemaSelection : String := "bellbook.selection.v1"
def schemaRequirement : String := "bellbook.requirement.v1"
def schemaEvaluationV2 : String := "bellbook.evaluation.v2"
def schemaEvaluationAttested : String := "bellbook.evaluation.attested.v1"

/-- `ALL_SCHEMAS`: every schema name of the current epoch. -/
def allSchemas : List String :=
  [schemaRequest, schemaAction, schemaResponse, schemaResult, schemaResultExternal,
    schemaResultEffectConfirmation, schemaCapability, schemaApproval, schemaSummary, schemaRefusal,
    schemaUsage, schemaVerdict, schemaPlan, schemaRetraction, schemaCandidate, schemaEvaluation,
    schemaSelection, schemaRequirement, schemaEvaluationV2, schemaEvaluationAttested]

/-- `schema_name_for_id`: the frozen name with the given id. -/
def Platform.schemaNameForId (P : Platform) (id : Hash256) : Option String :=
  allSchemas.find? fun name => P.schemaId name = id

end Bellbook
