import Bellbook.Receipt.Codec
import Bellbook.Verify.Replay

/-!
# Receipts (`receipt.rs`, `base/schema.rs`)

A `Receipt` is a portable bundle of a log and the rules it was committed under; a `Report` is what a
validator says about one.

* The schemas of an epoch are a list of names; `rulesForEpoch` drops the other schemas from the rules.
* `checkDeclarations` are the structural rules for the profiles a receipt declares.
* A receipt is read back from its canonical tree (`RoundTrips Receipt`).
-/

namespace Bellbook

open Std

/-! ## Epochs -/

/-- `SPEC_VERSION`. -/
def specVersion : String := "0.4"

/-- `SUPPORTED_SPEC_VERSIONS`, oldest first. -/
def supportedSpecVersions : List String := ["0.3", "0.4"]

/-- `SCHEMAS_V03`: the schemas of epoch 0.3. -/
def schemasV03 : List String :=
  [schemaRequest, schemaAction, schemaResponse, schemaResult, schemaResultExternal,
    schemaResultEffectConfirmation, schemaCapability, schemaApproval, schemaSummary, schemaRefusal,
    schemaUsage, schemaVerdict, schemaPlan, schemaRetraction, schemaCandidate, schemaEvaluation,
    schemaSelection]

/-- `schemas_for_epoch`. -/
def schemasForEpoch : String → Option (List String)
  | "0.3" => some schemasV03
  | "0.4" => some allSchemas
  | _ => none

/-- `rules_for_epoch`: the map from schemas to kinds is restricted to the schemas of the epoch. -/
def Platform.rulesForEpoch (P : Platform) (rules : VerifierRules) (schemas : List String) :
    VerifierRules :=
  { rules with
    kindSchemaMap := rules.kindSchemaMap.filter fun schema _ => schema ∈ schemas.map P.schemaId }

/-! ## Receipts -/

/-- A receipt's declaration that it claims a profile. -/
structure ProfileRef where
  id : String
  version : UInt32
  hash : Hash256
  deriving DecidableEq

structure Receipt where
  specVersion : String
  profiles : List ProfileRef
  rules : VerifierRules
  records : List Record
  deriving DecidableEq

/-- `Receipt::new`. -/
def Receipt.new (records : List Record) (rules : VerifierRules) : Receipt :=
  { specVersion := Bellbook.specVersion, profiles := [], rules, records }

instance : Serialize ProfileRef where
  toValue p := .object
    [("id", toValue p.id), ("version", toValue p.version), ("hash", toValue p.hash)]

instance : Deserialize ProfileRef where
  fromValue v := do
    let f ← structFields true ["id", "version", "hash"] v
    return { id := ← f.required "id", version := ← f.required "version", hash := ← f.required "hash" }

/-- `skip_serializing_if = "Vec::is_empty"`. -/
def skipEmpty {α : Type} [Serialize α] (name : String) : List α → List (String × Json)
  | [] => []
  | as => [(name, toValue as)]

/-- The members of a receipt. -/
def receiptMembers (r : Receipt) : List (String × Json) :=
  [("spec_version", toValue r.specVersion)] ++ skipEmpty "profiles" r.profiles ++
    [("rules", toValue r.rules), ("records", toValue r.records)]

instance : Serialize Receipt where
  toValue r := .object (receiptMembers r)

instance : Deserialize Receipt where
  fromValue v := do
    let f ← structFields true ["spec_version", "profiles", "rules", "records"] v
    return {
      specVersion := ← f.required "spec_version"
      profiles := ← f.defaulted "profiles" []
      rules := ← f.required "rules"
      records := ← f.required "records" }

/-- `Receipt::to_bytes`. -/
def Platform.toBytes (P : Platform) (r : Receipt) : Option Bytes := P.canonicalJson r

/-- `Receipt::from_bytes`. -/
def Platform.fromBytes (P : Platform) (bytes : Bytes) : Option Receipt := P.decode Receipt bytes

instance : RoundTrips ProfileRef where
  fromValue_canon p := by
    have hf : structFields true ["id", "version", "hash"] (toValue p).canon = some (canonFields
        [("id", toValue p.id), ("version", toValue p.version), ("hash", toValue p.hash)]) :=
      structFields_canon (by simp) (by simp)
    show (structFields true _ _).bind _ = _
    rw [hf, Option.bind_some, required_canon (a := p.id) (by simp) (by simp),
      required_canon (a := p.version) (by simp) (by simp),
      required_canon (a := p.hash) (by simp) (by simp)]
    rfl

theorem nodup_receiptMembers (r : Receipt) : ((receiptMembers r).map Prod.fst).Nodup := by
  cases hp : r.profiles <;> simp [receiptMembers, skipEmpty, hp]

instance : RoundTrips Receipt where
  fromValue_canon r := by
    have hn := nodup_receiptMembers r
    have hsub : (receiptMembers r).map Prod.fst ⊆ ["spec_version", "profiles", "rules", "records"] := by
      cases hp : r.profiles <;> simp [receiptMembers, skipEmpty, hp]
    have hf : structFields true ["spec_version", "profiles", "rules", "records"] (toValue r).canon =
        some (canonFields (receiptMembers r)) := structFields_canon hn hsub
    -- an empty list of profiles is left out, and read as the default
    have hprofiles : (canonFields (receiptMembers r)).defaulted "profiles" [] = some r.profiles := by
      cases hp : r.profiles with
      | nil =>
        have hnone : (canonFields (receiptMembers r)).members.lookup "profiles" = none := by
          rw [List.lookup_eq_none_iff]
          intro m hm
          have hkey := keys_canon hm
          simp only [receiptMembers, skipEmpty, hp, List.append_nil, List.map_cons, List.map_nil,
            List.cons_append, List.nil_append] at hkey
          rw [bne_iff_ne]
          intro heq
          rw [← heq] at hkey
          simp at hkey
        rw [Fields.defaulted, hnone]
      | cons p ps =>
        rw [← hp]
        exact defaulted_canon hn (by simp [receiptMembers, skipEmpty, hp]) _
    show (structFields true _ _).bind _ = _
    rw [hf, Option.bind_some, required_canon (a := r.specVersion) hn (by simp [receiptMembers]),
      hprofiles, required_canon (a := r.rules) hn (by simp [receiptMembers]),
      required_canon (a := r.records) hn (by simp [receiptMembers])]
    rfl

/-! ## Reports -/

inductive ValidationStatus where
  | clean | tainted | invalid
  deriving DecidableEq, Repr

inductive ProfileStatus where
  | conformant | nonConformant | unknown
  deriving DecidableEq, Repr

structure ClauseResult where
  id : String
  passed : Bool
  deriving DecidableEq, Repr

structure ProfileResult where
  id : String
  hash : Hash256
  status : ProfileStatus
  clauses : List ClauseResult
  declared : Bool
  declarationMatches : Option Bool
  deriving DecidableEq

/-- The structural problems of a receipt, with what their messages report. -/
inductive Problem where
  | sizeLimit (bytes limit : Nat)
  | unparseable
  | recordLimit (records limit : Nat)
  | payloadLimit (idx : Nat)
  | refLimit (idx : Nat)
  | unsupportedVersion (version : String)
  | declarationsTooEarly (version : String)
  | emptyProfileId (idx : Nat)
  | repeatedProfile (id : String)
  | rulesDoNotCanonicalize
  deriving DecidableEq, Repr

structure Report where
  status : ValidationStatus
  reason : Option ReasonCode
  problem : Option Problem
  specVersion : String
  recordCount : Nat
  checkedRecords : Nat
  lastTime : Time
  headHash : Hash256
  rulesHash : Hash256
  retractedRecords : IdSet
  taintedRecords : IdSet
  standing : StandingSection
  profiles : List ProfileResult
  deriving DecidableEq

/-- `Report::structural_failure`. -/
def Report.structuralFailure (problem : Problem) (specVersion : String) : Report where
  status := .invalid
  reason := none
  problem := some problem
  specVersion := specVersion
  recordCount := 0
  checkedRecords := 0
  lastTime := 0
  headHash := 0
  rulesHash := 0
  retractedRecords := ∅
  taintedRecords := ∅
  standing := {}
  profiles := []

/-! ## Structure -/

/-- `PROFILE_DECLARATIONS_SINCE`. -/
def profileDeclarationsSince : String := "0.4"

/-- One supported epoch is older than another; an unknown one is older than all of them. -/
def olderEpoch (v w : String) : Bool :=
  match supportedSpecVersions.idxOf? v, supportedSpecVersions.idxOf? w with
  | none, some _ => true
  | some i, some j => i < j
  | _, none => false

/-- The ids of the declarations from position `idx` on: not empty, and not seen before. -/
def checkDeclarationIds : Nat → List String → List ProfileRef → Option Problem
  | _, _, [] => none
  | idx, seen, decl :: rest =>
    if decl.id = "" then some (.emptyProfileId idx)
    else if decl.id ∈ seen then some (.repeatedProfile decl.id)
    else checkDeclarationIds (idx + 1) (decl.id :: seen) rest

/-- `check_declarations`. -/
def checkDeclarations (r : Receipt) : Option Problem :=
  if r.profiles = [] then none
  else if olderEpoch r.specVersion profileDeclarationsSince then
    some (.declarationsTooEarly r.specVersion)
  else checkDeclarationIds 0 [] r.profiles

structure ValidationLimits where
  maxBytes : Nat := 67108864
  maxRecords : Nat := 1000000
  maxPayloadBytes : Nat := 16777216
  maxRefsPerRecord : Nat := 4096

/-- The bounds on one record. -/
def ValidationLimits.checkRecord (limits : ValidationLimits) (r : Record) (idx : Nat) :
    Option Problem :=
  if limits.maxPayloadBytes < r.data.length then some (.payloadLimit idx)
  else if limits.maxRefsPerRecord < r.refs.length then some (.refLimit idx)
  else none

/-- The bounds on what was read. -/
def ValidationLimits.check (limits : ValidationLimits) (r : Receipt) : Option Problem :=
  if limits.maxRecords < r.records.length then
    some (.recordLimit r.records.length limits.maxRecords)
  else r.records.zipIdx.findSome? fun p => limits.checkRecord p.1 p.2

end Bellbook
