import Bellbook.Base.RoundTrip
import Bellbook.Verify.Rules

/-!
# Codecs of records and rules (`record/record.rs`, `verify/rules.rs`)

Records and rules are read back from their canonical trees. The maps and sets of the rules have
decoders of their own, which refuse repetitions; the rules with a default may be absent.
-/

namespace Bellbook

open Std

/-! ## Records -/

instance : RoundTrips Signature where
  fromValue_canon s := by
    have hf : structFields true ["key_id", "sig"] (toValue s).canon = some (canonFields
        [("key_id", toValue s.keyId), ("sig", toValue s.sig)]) :=
      structFields_canon (by simp) (by simp)
    show (structFields true _ _).bind _ = _
    rw [hf, Option.bind_some, required_canon (a := s.keyId) (by simp) (by simp),
      required_canon (a := s.sig) (by simp) (by simp)]
    rfl

theorem canon_signature_ne_null (s : Signature) : (toValue s).canon ≠ .null := by
  rintro ⟨⟩

instance : RoundTrips Author where
  fromValue_canon a := by
    let ms := [("id", toValue a.id), ("type", toValue a.type), ("signature", toValue a.signature)]
    have hn : (ms.map Prod.fst).Nodup := by simp [ms]
    have hf : structFields true ["id", "type", "signature"] (toValue a).canon =
        some (canonFields ms) := structFields_canon hn (by simp)
    have hsig : (canonFields ms).optional "signature" = some a.signature := by
      rw [Fields.optional, lookup_canon (v := toValue a.signature) hn (by simp [ms])]
      exact fromValue_option canon_signature_ne_null _
    show (structFields true _ _).bind _ = _
    rw [hf, Option.bind_some, required_canon (a := a.id) hn (by simp [ms]),
      required_canon (a := a.type) hn (by simp [ms]), hsig]
    rfl

instance : RoundTrips Ref where
  fromValue_canon r := by
    have hf : structFields true ["type", "target"] (toValue r).canon = some (canonFields
        [("type", toValue r.type), ("target", toValue r.target)]) :=
      structFields_canon (by simp) (by simp)
    show (structFields true _ _).bind _ = _
    rw [hf, Option.bind_some, required_canon (a := r.type) (by simp) (by simp),
      required_canon (a := r.target) (by simp) (by simp)]
    rfl

/-- The members of a record. -/
def recordMembers (r : Record) : List (String × Json) :=
  [("id", toValue r.id), ("space", toValue r.space), ("thread", toValue r.thread),
    ("time", toValue r.time), ("author", toValue r.author), ("kind", toValue r.kind),
    ("schema", toValue r.schema), ("data", toValue r.data), ("refs", toValue r.refs),
    ("evidence", toValue r.evidence)]

instance : RoundTrips Record where
  fromValue_canon r := by
    have hn : ((recordMembers r).map Prod.fst).Nodup := by simp [recordMembers]
    have hf : structFields true ["id", "space", "thread", "time", "author", "kind", "schema", "data",
        "refs", "evidence"] (toValue r).canon = some (canonFields (recordMembers r)) :=
      structFields_canon hn (by simp)
    have field {α : Type} [Serialize α] [Deserialize α] [RoundTrips α] {k : String} {a : α}
        (h : (k, toValue a) ∈ recordMembers r) : (canonFields (recordMembers r)).required k = some a :=
      required_canon hn h
    show (structFields true _ _).bind _ = _
    rw [hf, Option.bind_some, field (a := r.id) (by simp [recordMembers]),
      field (a := r.space) (by simp [recordMembers]), field (a := r.thread) (by simp [recordMembers]),
      field (a := r.time) (by simp [recordMembers]), field (a := r.author) (by simp [recordMembers]),
      field (a := r.kind) (by simp [recordMembers]), field (a := r.schema) (by simp [recordMembers]),
      field (a := r.data) (by simp [recordMembers]), field (a := r.refs) (by simp [recordMembers]),
      field (a := r.evidence) (by simp [recordMembers])]
    rfl

/-! ## Rules -/

/-- A field with a decoder of its own (`#[serde(with = ...)]`). -/
def Fields.requiredWith {α : Type} (f : Fields) (name : String) (decoder : Json → Option α) :
    Option α := (f.members.lookup name).bind decoder

/-- A field with a decoder of its own and a default. -/
def Fields.defaultedWith {α : Type} (f : Fields) (name : String) (decoder : Json → Option α)
    (default : α) : Option α :=
  match f.members.lookup name with
  | some v => decoder v
  | none => some default

/-- A unit variant as the key of a map. -/
def variantKey {α : Type} [UnitEnum α] (name : String) : Option α :=
  UnitEnum.variants.find? fun a => UnitEnum.name a = name

/-- The field names of the rules. -/
def ruleNames : List String :=
  ["space", "kind_schema_map", "signature_required_kinds", "author_keys", "author_roles",
    "admin_retraction_actors", "allowed_summary_types", "evidence_thresholds", "max_context_records",
    "min_binding", "selection_requires_evaluation", "reaffirmation_actors", "max_considered",
    "selection_requires_approval", "reject_compromised_continuation"]

instance : Deserialize VerifierRules where
  fromValue v := do
    let f ← structFields true ruleNames v
    return {
      space := ← f.required "space"
      kindSchemaMap := ← f.requiredWith "kind_schema_map" pairMap
      signatureRequiredKinds := ← f.requiredWith "signature_required_kinds" strictSet
      -- `strict_author_keys`: the keys of one author are a list without repetitions
      authorKeys := ← f.requiredWith "author_keys" (strictMap some strictSet)
      authorRoles := ← f.requiredWith "author_roles" (strictMap some fromValue)
      adminRetractionActors := ← f.requiredWith "admin_retraction_actors" strictSet
      allowedSummaryTypes := ← f.requiredWith "allowed_summary_types" strictSet
      evidenceThresholds := ← f.requiredWith "evidence_thresholds" (strictMap variantKey fromValue)
      maxContextRecords := ← f.required "max_context_records"
      minBinding := ← f.defaulted "min_binding" .reported
      selectionRequiresEvaluation := ← f.defaulted "selection_requires_evaluation" true
      reaffirmationActors := ← f.defaultedWith "reaffirmation_actors" strictSet ∅
      maxConsidered := ← f.defaulted "max_considered" 4096
      selectionRequiresApproval := ← f.defaulted "selection_requires_approval" false
      rejectCompromisedContinuation := ← f.defaulted "reject_compromised_continuation" false }

/-- The members of the rules. -/
def ruleMembers (r : VerifierRules) : List (String × Json) :=
  [("space", toValue r.space),
    ("kind_schema_map", idPairs r.kindSchemaMap),
    ("signature_required_kinds", setValue r.signatureRequiredKinds),
    ("author_keys", mapObject id setValue r.authorKeys),
    ("author_roles", mapObject id toValue r.authorRoles),
    ("admin_retraction_actors", setValue r.adminRetractionActors),
    ("allowed_summary_types", setValue r.allowedSummaryTypes),
    ("evidence_thresholds", mapObject UnitEnum.name toValue r.evidenceThresholds),
    ("max_context_records", toValue r.maxContextRecords),
    ("min_binding", toValue r.minBinding),
    ("selection_requires_evaluation", toValue r.selectionRequiresEvaluation),
    ("reaffirmation_actors", setValue r.reaffirmationActors),
    ("max_considered", toValue r.maxConsidered),
    ("selection_requires_approval", toValue r.selectionRequiresApproval),
    ("reject_compromised_continuation", toValue r.rejectCompromisedContinuation)]

section Rules

variable {ms : List (String × Json)} {k : String} {v : Json} {α : Type} {a : α}
  {decoder : Json → Option α}

theorem requiredWith_canon (hn : (ms.map Prod.fst).Nodup) (h : (k, v) ∈ ms)
    (hdec : decoder v.canon = some a) : (canonFields ms).requiredWith k decoder = some a := by
  rw [Fields.requiredWith, lookup_canon hn h, Option.bind_some, hdec]

theorem defaultedWith_canon (hn : (ms.map Prod.fst).Nodup) (h : (k, v) ∈ ms)
    (hdec : decoder v.canon = some a) (default : α) :
    (canonFields ms).defaultedWith k decoder default = some a := by
  rw [Fields.defaultedWith, lookup_canon hn h]
  exact hdec

theorem variantKey_name {α : Type} [UnitEnum α] (a : α) : variantKey (UnitEnum.name a) = some a :=
  UnitEnum.find_name a

/-- **Rules read back**: every map and set survives its strict codec. -/
instance : RoundTrips VerifierRules where
  fromValue_canon r := by
    have hn : ((ruleMembers r).map Prod.fst).Nodup := by simp [ruleMembers]
    have hf : structFields true ruleNames (toValue r).canon = some (canonFields (ruleMembers r)) :=
      structFields_canon hn (by simp [ruleNames])
    have hmap : (canonFields (ruleMembers r)).requiredWith "kind_schema_map" pairMap =
        some r.kindSchemaMap :=
      requiredWith_canon hn (v := idPairs r.kindSchemaMap) (by simp [ruleMembers]) (pairMap_canon _)
    have hset {α : Type} [Ord α] [TransOrd α] [LawfulEqOrd α] [Serialize α] [Deserialize α]
        [RoundTrips α] (k : String) (s : ExtTreeSet α) (h : (k, setValue s) ∈ ruleMembers r) :
        (canonFields (ruleMembers r)).requiredWith k strictSet = some s :=
      requiredWith_canon hn h (strictSet_canon s)
    have hkeys : (canonFields (ruleMembers r)).requiredWith "author_keys" (strictMap some strictSet) =
        some r.authorKeys :=
      requiredWith_canon hn (v := mapObject id setValue r.authorKeys) (by simp [ruleMembers])
        (strictMap_canon (fun _ => rfl) strictSet_canon _)
    have hroles : (canonFields (ruleMembers r)).requiredWith "author_roles"
        (strictMap some fromValue) = some r.authorRoles :=
      requiredWith_canon hn (v := mapObject id toValue r.authorRoles) (by simp [ruleMembers])
        (strictMap_canon (fun _ => rfl) fromValue_canon _)
    have hthresholds : (canonFields (ruleMembers r)).requiredWith "evidence_thresholds"
        (strictMap variantKey fromValue) = some r.evidenceThresholds :=
      requiredWith_canon hn (v := mapObject UnitEnum.name toValue r.evidenceThresholds)
        (by simp [ruleMembers]) (strictMap_canon variantKey_name fromValue_canon _)
    have hreaffirm : (canonFields (ruleMembers r)).defaultedWith "reaffirmation_actors" strictSet ∅ =
        some r.reaffirmationActors :=
      defaultedWith_canon hn (v := setValue r.reaffirmationActors) (by simp [ruleMembers])
        (strictSet_canon _) _
    show (structFields true _ _).bind _ = _
    rw [hf, Option.bind_some, required_canon (a := r.space) hn (by simp [ruleMembers]), hmap,
      hset "signature_required_kinds" r.signatureRequiredKinds (by simp [ruleMembers]), hkeys, hroles,
      hset "admin_retraction_actors" r.adminRetractionActors (by simp [ruleMembers]),
      hset "allowed_summary_types" r.allowedSummaryTypes (by simp [ruleMembers]), hthresholds,
      required_canon (a := r.maxContextRecords) hn (by simp [ruleMembers]),
      defaulted_canon (a := r.minBinding) hn (by simp [ruleMembers]),
      defaulted_canon (a := r.selectionRequiresEvaluation) hn (by simp [ruleMembers]), hreaffirm,
      defaulted_canon (a := r.maxConsidered) hn (by simp [ruleMembers]),
      defaulted_canon (a := r.selectionRequiresApproval) hn (by simp [ruleMembers]),
      defaulted_canon (a := r.rejectCompromisedContinuation) hn (by simp [ruleMembers])]
    rfl

end Rules

end Bellbook
