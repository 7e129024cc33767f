import Mathlib.Order.Basic
import Bellbook.Record.Payloads

/-!
# Records (`record/record.rs`, `author.rs`, `refs.rs`, `evidence.rs`, `sign.rs`)

* `Record` is the one durable primitive of the log, `Proposal` what is offered for commit.
* `canonicalIdForm` is everything but the id, in canonical JSON; a record's id is its SHA-256. Two
  records with the same id form differ at most in their `id` (`content_eq_of_idForm_eq`).
* `signingBytes` leaves out the signature as well, and is what Ed25519 signs.
* `deriveEvidence` is the weakest-link rule.
-/

namespace Bellbook

/-! ## Evidence -/

/-- Trust class of a record's content, from the strongest to the weakest. -/
inductive Evidence where
  | deterministic | verified | reported | inferred | assumed
  deriving DecidableEq, Repr

instance : UnitEnum Evidence where
  name
    | .deterministic => "Deterministic" | .verified => "Verified" | .reported => "Reported"
    | .inferred => "Inferred" | .assumed => "Assumed"
  variants := [.deterministic, .verified, .reported, .inferred, .assumed]
  find_name a := by cases a <;> decide

theorem Evidence.ctorIdx_injective : Function.Injective Evidence.ctorIdx := by
  intro a b h
  cases a <;> cases b <;> first | rfl | cases h

/-- The derived order of the source: weaker is greater. -/
instance : LinearOrder Evidence := LinearOrder.lift' Evidence.ctorIdx Evidence.ctorIdx_injective

/-- The arms of `base_evidence`. -/
def schemaEvidence : List (String × Evidence) :=
  [(schemaVerdict, .deterministic), (schemaResultExternal, .verified), (schemaRequest, .reported),
    (schemaAction, .reported), (schemaResponse, .reported), (schemaResult, .reported),
    (schemaResultEffectConfirmation, .reported), (schemaCapability, .reported),
    (schemaApproval, .reported), (schemaRefusal, .reported), (schemaUsage, .reported),
    (schemaRetraction, .reported), (schemaCandidate, .reported), (schemaEvaluation, .reported),
    (schemaRequirement, .reported), (schemaEvaluationV2, .reported),
    (schemaEvaluationAttested, .verified), (schemaSummary, .inferred), (schemaPlan, .inferred),
    (schemaSelection, .inferred)]

/-- `base_evidence`. -/
def Platform.baseEvidence (P : Platform) (schema : Hash256) : Evidence :=
  ((P.schemaNameForId schema).bind fun name => schemaEvidence.lookup name).getD .assumed

/-- `weakest`: the maximum, `Deterministic` for the empty slice. -/
def weakest (evidences : List Evidence) : Evidence := evidences.max?.getD .deterministic

/-- `derive_evidence`. -/
def Platform.deriveEvidence (P : Platform) (schema : Hash256) (refEvidences : List Evidence) :
    Evidence :=
  if refEvidences = [] then P.baseEvidence schema
  else weakest (P.baseEvidence schema :: refEvidences)

/-! ## Authors and refs -/

structure Signature where
  keyId : String
  sig : Bytes
  deriving DecidableEq

structure Author where
  id : ActorId
  type : AuthorType
  signature : Option Signature
  deriving DecidableEq

structure Ref where
  type : RefType
  target : RecordId
  deriving DecidableEq

instance : Serialize Signature where
  toValue s := .object [("key_id", toValue s.keyId), ("sig", toValue s.sig)]

instance : Deserialize Signature where
  fromValue v := do
    let f ← structFields true ["key_id", "sig"] v
    return { keyId := ← f.required "key_id", sig := ← f.required "sig" }

instance : Serialize Author where
  toValue a := .object
    [("id", toValue a.id), ("type", toValue a.type), ("signature", toValue a.signature)]

instance : Deserialize Author where
  fromValue v := do
    let f ← structFields true ["id", "type", "signature"] v
    return {
      id := ← f.required "id"
      type := ← f.required "type"
      signature := ← f.optional "signature" }

instance : Serialize Ref where
  toValue r := .object [("type", toValue r.type), ("target", toValue r.target)]

instance : Deserialize Ref where
  fromValue v := do
    let f ← structFields true ["type", "target"] v
    return { type := ← f.required "type", target := ← f.required "target" }

/-- The order of refs: type ordinal, then target bytes. -/
def Ref.le (a b : Ref) : Prop :=
  a.type.ordinal < b.type.ordinal ∨ (a.type.ordinal = b.type.ordinal ∧ a.target ≤ b.target)

def Ref.lt (a b : Ref) : Prop :=
  a.type.ordinal < b.type.ordinal ∨ (a.type.ordinal = b.type.ordinal ∧ a.target < b.target)

instance : DecidableRel Ref.le := fun _ _ => inferInstanceAs (Decidable (_ ∨ _))
instance : DecidableRel Ref.lt := fun _ _ => inferInstanceAs (Decidable (_ ∨ _))

/-- `Vec::dedup`: drop consecutive repetitions. -/
def dedupAdjacent {α : Type} [DecidableEq α] : List α → List α
  | a :: b :: rest => if a = b then dedupAdjacent (b :: rest) else a :: dedupAdjacent (b :: rest)
  | l => l

/-- `sort_and_dedup_refs`. -/
def sortAndDedupRefs (refs : List Ref) : List Ref := dedupAdjacent (refs.insertionSort Ref.le)

/-- The targets of the refs of one type, in ref order. -/
def refTargets (type : RefType) (refs : List Ref) : List RecordId :=
  (refs.filter fun r => r.type = type).map Ref.target

/-- `find_replace_ref`. -/
def findReplaceRef (refs : List Ref) : Option RecordId :=
  (refs.find? fun r => r.type = .replace).map Ref.target

/-! ## Records and proposals -/

structure Record where
  id : RecordId
  space : SpaceId
  thread : ThreadId
  time : Time
  author : Author
  kind : Kind
  schema : Hash256
  data : Bytes
  refs : List Ref
  evidence : Evidence
  deriving DecidableEq

structure Proposal where
  space : SpaceId
  thread : ThreadId
  author : Author
  kind : Kind
  schema : Hash256
  data : Bytes
  refs : List Ref
  deriving DecidableEq

instance : Serialize Record where
  toValue r := .object
    [("id", toValue r.id), ("space", toValue r.space), ("thread", toValue r.thread),
      ("time", toValue r.time), ("author", toValue r.author), ("kind", toValue r.kind),
      ("schema", toValue r.schema), ("data", toValue r.data), ("refs", toValue r.refs),
      ("evidence", toValue r.evidence)]

instance : Deserialize Record where
  fromValue v := do
    let f ← structFields true
      ["id", "space", "thread", "time", "author", "kind", "schema", "data", "refs", "evidence"] v
    return {
      id := ← f.required "id"
      space := ← f.required "space"
      thread := ← f.required "thread"
      time := ← f.required "time"
      author := ← f.required "author"
      kind := ← f.required "kind"
      schema := ← f.required "schema"
      data := ← f.required "data"
      refs := ← f.required "refs"
      evidence := ← f.required "evidence" }

instance : Serialize Proposal where
  toValue p := .object
    [("space", toValue p.space), ("thread", toValue p.thread), ("author", toValue p.author),
      ("kind", toValue p.kind), ("schema", toValue p.schema), ("data", toValue p.data),
      ("refs", toValue p.refs)]

/-- `CanonicalIdAuthor`: an absent signature is left out, not `null`. -/
def idAuthor (a : Author) : Json :=
  .object ([("id", toValue a.id), ("type", toValue a.type)] ++ skipNone "signature" a.signature)

/-- `CanonicalIdForm`: every field but the id. -/
def idForm (r : Record) : Json :=
  .object
    [("space", toValue r.space), ("thread", toValue r.thread), ("time", toValue r.time),
      ("author", idAuthor r.author), ("kind", toValue r.kind), ("schema", toValue r.schema),
      ("data", toValue r.data), ("refs", toValue r.refs), ("evidence", toValue r.evidence)]

/-- `CanonicalSigningForm`: every field but the id and the signature. -/
def signingForm (r : Record) : Json :=
  .object
    [("space", toValue r.space), ("thread", toValue r.thread), ("time", toValue r.time),
      ("author", .object [("id", toValue r.author.id), ("type", toValue r.author.type)]),
      ("kind", toValue r.kind), ("schema", toValue r.schema), ("data", toValue r.data),
      ("refs", toValue r.refs), ("evidence", toValue r.evidence)]

/-- `RECORD_SIGNATURE_DOMAIN`. -/
def recordSignatureDomain : String := "bellbook.record-signature.v0.3"

namespace Platform

variable (P : Platform)

/-- `canonical_id_form`. -/
def canonicalIdForm (r : Record) : Option Bytes := P.canonicalJson (idForm r)

/-- `compute_id`. -/
def computeId (r : Record) : Option RecordId := (P.canonicalIdForm r).map P.sha256

/-- `with_computed_id`. -/
def withComputedId (r : Record) : Option Record := (P.computeId r).map fun id => { r with id := id }

/-- `signing_bytes`. -/
def signingBytes (r : Record) : Option Bytes :=
  P.canonicalJson (Json.object
    [("domain", toValue recordSignatureDomain), ("record", signingForm r)])

/-- `Ed25519Signer::sign`, for a signer holding `secret`. -/
def sign (secret : Hash256) (r : Record) : Option Signature :=
  (P.signingBytes r).map fun message =>
    { keyId := hexEncode (P.publicKey secret), sig := P.signBytes secret message }

/-- `verified_key`: the key an attached signature verifies against. -/
def verifiedKey (r : Record) : Option Hash256 := do
  let sig ← r.author.signature
  let key ← hexDecode sig.keyId
  if sig.sig.length ≠ 64 then none
  let message ← P.signingBytes r
  if P.verifyStrict key message sig.sig then some key else none

end Platform

/-! ## The id form binds the content -/

instance : LawfulSerialize Signature where
  floatFree s :=
    ⟨LawfulSerialize.floatFree s.keyId, LawfulSerialize.floatFree s.sig, trivial⟩
  canon_inj {a b} h := by
    have hk : a.keyId = b.keyId := LawfulSerialize.canon_inj
      (canon_field_eq h (k := "key_id") (by simp) (by simp) (by simp))
    have hs : a.sig = b.sig := LawfulSerialize.canon_inj
      (canon_field_eq h (k := "sig") (by simp) (by simp) (by simp))
    cases a; cases b
    rw [Signature.mk.injEq]
    exact ⟨hk, hs⟩

instance : LawfulSerialize Ref where
  floatFree r :=
    ⟨LawfulSerialize.floatFree r.type, LawfulSerialize.floatFree r.target, trivial⟩
  canon_inj {a b} h := by
    have ht : a.type = b.type := LawfulSerialize.canon_inj
      (canon_field_eq h (k := "type") (by simp) (by simp) (by simp))
    have htg : a.target = b.target := LawfulSerialize.canon_inj
      (canon_field_eq h (k := "target") (by simp) (by simp) (by simp))
    cases a; cases b
    rw [Ref.mk.injEq]
    exact ⟨ht, htg⟩

theorem floatFree_idAuthor (a : Author) : (idAuthor a).FloatFree := by
  rcases a with ⟨id, type, _ | s⟩
  · exact ⟨LawfulSerialize.floatFree id, LawfulSerialize.floatFree type, trivial⟩
  · exact ⟨LawfulSerialize.floatFree id, LawfulSerialize.floatFree type,
      LawfulSerialize.floatFree s, trivial⟩

theorem nodup_idAuthor_keys (a : Author) :
    (([("id", toValue a.id), ("type", toValue a.type)] ++
      skipNone "signature" a.signature).map Prod.fst).Nodup := by
  rcases a with ⟨id, type, _ | s⟩ <;> simp [skipNone]

theorem idAuthor_inj {a b : Author} (h : (idAuthor a).canon = (idAuthor b).canon) : a = b := by
  have hid : a.id = b.id := LawfulSerialize.canon_inj
    (canon_field_eq h (k := "id") (by simp) (by simp) (nodup_idAuthor_keys b))
  have htype : a.type = b.type := LawfulSerialize.canon_inj
    (canon_field_eq h (k := "type") (by simp) (by simp) (nodup_idAuthor_keys b))
  -- an absent signature is an absent member, so presence itself has to agree
  have hsig : a.signature = b.signature := by
    rcases ha : a.signature with _ | s <;> rcases hb : b.signature with _ | t
    · rfl
    · obtain ⟨w, hw, -⟩ := mem_of_canon_object_eq h.symm (k := "signature") (v := toValue t)
        (by simp [hb, skipNone])
      simp [ha, skipNone] at hw
    · obtain ⟨w, hw, -⟩ := mem_of_canon_object_eq h (k := "signature") (v := toValue s)
        (by simp [ha, skipNone])
      simp [hb, skipNone] at hw
    · have : s = t := LawfulSerialize.canon_inj (canon_field_eq h (k := "signature")
        (by simp [ha, skipNone]) (by simp [hb, skipNone]) (nodup_idAuthor_keys b))
      rw [this]
  cases a; cases b
  rw [Author.mk.injEq]
  exact ⟨hid, htype, hsig⟩

theorem floatFree_idForm (r : Record) : (idForm r).FloatFree :=
  ⟨LawfulSerialize.floatFree r.space, LawfulSerialize.floatFree r.thread,
    LawfulSerialize.floatFree r.time, floatFree_idAuthor r.author, LawfulSerialize.floatFree r.kind,
    LawfulSerialize.floatFree r.schema, LawfulSerialize.floatFree r.data,
    LawfulSerialize.floatFree r.refs, LawfulSerialize.floatFree r.evidence, trivial⟩

/-- Two records agree on everything but the id. -/
def Record.SameContent (r r' : Record) : Prop := { r with id := 0 } = { r' with id := 0 }

theorem Record.SameContent.eq {r r' : Record} (h : r.SameContent r') (hid : r.id = r'.id) :
    r = r' := by
  cases r; cases r'
  simp_all [Record.SameContent]

theorem sameContent_of_canon_eq {r r' : Record} (h : (idForm r).canon = (idForm r').canon) :
    r.SameContent r' := by
  have field {α : Type} [Serialize α] [LawfulSerialize α] (k : String) {a b : α}
      (ha : (k, toValue a) ∈ _) (hb : (k, toValue b) ∈ _) : a = b :=
    LawfulSerialize.canon_inj (canon_field_eq h ha hb (by simp))
  have hauthor : r.author = r'.author := idAuthor_inj
    (canon_field_eq h (k := "author") (by simp) (by simp) (by simp))
  have hspace : r.space = r'.space := field "space" (by simp) (by simp)
  have hthread : r.thread = r'.thread := field "thread" (by simp) (by simp)
  have htime : r.time = r'.time := field "time" (by simp) (by simp)
  have hkind : r.kind = r'.kind := field "kind" (by simp) (by simp)
  have hschema : r.schema = r'.schema := field "schema" (by simp) (by simp)
  have hdata : r.data = r'.data := field "data" (by simp) (by simp)
  have hrefs : r.refs = r'.refs := field "refs" (by simp) (by simp)
  have hevidence : r.evidence = r'.evidence := field "evidence" (by simp) (by simp)
  simp only [Record.SameContent, hauthor, hspace, hthread, htime, hkind, hschema, hdata, hrefs,
    hevidence]

/-- **The id form binds the content**: records with one canonical id form differ only in `id`. -/
theorem sameContent_of_idForm_eq (P : Platform) {r r' : Record} {bytes : Bytes}
    (h : P.canonicalIdForm r = some bytes) (h' : P.canonicalIdForm r' = some bytes) :
    r.SameContent r' := by
  obtain ⟨text, hs, ht⟩ := text_of_canonicalJson_eq P h h'
  exact sameContent_of_canon_eq
    (canon_eq_of_writeJcs_eq (floatFree_idForm r) (floatFree_idForm r') hs ht)

/-! ## Proposals -/

instance : LawfulSerialize Author where
  floatFree a := by
    obtain ⟨id, type, _ | s⟩ := a
    · exact ⟨LawfulSerialize.floatFree id, LawfulSerialize.floatFree type, trivial, trivial⟩
    · exact ⟨LawfulSerialize.floatFree id, LawfulSerialize.floatFree type,
        LawfulSerialize.floatFree s, trivial⟩
  canon_inj {a b} h := by
    have hid : a.id = b.id := LawfulSerialize.canon_inj
      (canon_field_eq h (k := "id") (by simp) (by simp) (by simp))
    have htype : a.type = b.type := LawfulSerialize.canon_inj
      (canon_field_eq h (k := "type") (by simp) (by simp) (by simp))
    have hsig := canon_field_eq h (k := "signature") (v := toValue a.signature)
      (w := toValue b.signature) (by simp) (by simp) (by simp)
    have hsignature : a.signature = b.signature := by
      rcases ha : a.signature with _ | x <;> rcases hb : b.signature with _ | y
      · rfl
      · rw [ha, hb] at hsig
        simp [toValue, Json.canon] at hsig
      · rw [ha, hb] at hsig
        simp [toValue, Json.canon] at hsig
      · rw [ha, hb] at hsig
        rw [LawfulSerialize.canon_inj (a := x) (b := y) hsig]
    cases a; cases b
    rw [Author.mk.injEq]
    exact ⟨hid, htype, hsignature⟩

instance : LawfulSerialize Proposal where
  floatFree p :=
    ⟨LawfulSerialize.floatFree p.space, LawfulSerialize.floatFree p.thread,
      LawfulSerialize.floatFree p.author, LawfulSerialize.floatFree p.kind,
      LawfulSerialize.floatFree p.schema, LawfulSerialize.floatFree p.data,
      LawfulSerialize.floatFree p.refs, trivial⟩
  canon_inj {a b} h := by
    have field {α : Type} [Serialize α] [LawfulSerialize α] (k : String) {x y : α}
        (hx : (k, toValue x) ∈ _) (hy : (k, toValue y) ∈ _) : x = y :=
      LawfulSerialize.canon_inj (canon_field_eq h hx hy (by simp))
    have hspace : a.space = b.space := field "space" (by simp) (by simp)
    have hthread : a.thread = b.thread := field "thread" (by simp) (by simp)
    have hauthor : a.author = b.author := field "author" (by simp) (by simp)
    have hkind : a.kind = b.kind := field "kind" (by simp) (by simp)
    have hschema : a.schema = b.schema := field "schema" (by simp) (by simp)
    have hdata : a.data = b.data := field "data" (by simp) (by simp)
    have hrefs : a.refs = b.refs := field "refs" (by simp) (by simp)
    cases a; cases b
    rw [Proposal.mk.injEq]
    exact ⟨hspace, hthread, hauthor, hkind, hschema, hdata, hrefs⟩

end Bellbook
