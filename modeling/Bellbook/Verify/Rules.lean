import Bellbook.State.Build

/-!
# Verifier rules (`verify/rules.rs`)

The static configuration of the verifier. `frozenKindSchemaMap` is the map from schema ids to kinds
of the current epoch.
-/

namespace Bellbook

open Std

structure VerifierRules where
  space : SpaceId
  kindSchemaMap : IdMap Kind
  signatureRequiredKinds : ExtTreeSet Kind := ∅
  authorKeys : ExtTreeMap ActorId (ExtTreeSet Hash256) := ∅
  authorRoles : ExtTreeMap ActorId AuthorType := ∅
  adminRetractionActors : ExtTreeSet ActorId := ∅
  allowedSummaryTypes : ExtTreeSet SummaryType
  evidenceThresholds : ExtTreeMap Kind Evidence := ∅
  maxContextRecords : UInt32
  minBinding : BindingMode := .reported
  selectionRequiresEvaluation : Bool := true
  reaffirmationActors : ExtTreeSet ActorId := ∅
  maxConsidered : UInt32 := 4096
  selectionRequiresApproval : Bool := false
  rejectCompromisedContinuation : Bool := false
  deriving DecidableEq

instance : Serialize VerifierRules where
  toValue r := .object
    [("space", toValue r.space),
      ("kind_schema_map", idPairs r.kindSchemaMap),
      ("signature_required_kinds", setValue r.signatureRequiredKinds),
      ("author_keys", mapObject id setValue r.authorKeys),
      ("author_roles", mapObject id toValue r.authorRoles),
      ("admin_retraction_actors", setValue r.adminRetractionActors),
      ("allowed_summary_types", setValue r.allowedSummaryTypes),
      ("evidence_thresholds", mapObject UnitEnum.name toValue r.evidenceThresholds),
      ("max_context_records", toValue r.maxContextRecords),
      ("min_binding", toValue r.minBinding),
      ("selection_requires_evaluation", toValue r.selectionRequiresEvaluation),
      ("reaffirmation_actors", setValue r.reaffirmationActors),
      ("max_considered", toValue r.maxConsidered),
      ("selection_requires_approval", toValue r.selectionRequiresApproval),
      ("reject_compromised_continuation", toValue r.rejectCompromisedContinuation)]

/-- The schemas of the current epoch with the kind each belongs to. -/
def schemaKinds : List (String × Kind) :=
  [(schemaRequest, .request), (schemaAction, .action), (schemaResponse, .response),
    (schemaResult, .result), (schemaResultExternal, .result),
    (schemaResultEffectConfirmation, .result), (schemaCapability, .capability),
    (schemaApproval, .approval), (schemaSummary, .summary), (schemaRefusal, .refusal),
    (schemaUsage, .usage), (schemaVerdict, .verdict), (schemaPlan, .plan),
    (schemaRetraction, .retraction), (schemaCandidate, .candidate),
    (schemaEvaluation, .evaluation), (schemaSelection, .selection),
    (schemaRequirement, .requirement), (schemaEvaluationV2, .evaluation),
    (schemaEvaluationAttested, .evaluation)]

/-- `frozen_kind_schema_map`. -/
def Platform.frozenKindSchemaMap (P : Platform) : IdMap Kind :=
  schemaKinds.foldl (fun map p => map.insert (P.schemaId p.1) p.2) ∅

/-- `all_summary_types`. -/
def allSummaryTypes : ExtTreeSet SummaryType :=
  [.procedure, .pattern, .lesson, .stateSnapshot].foldl ExtTreeSet.insert ∅

/-- `VerifierRules::new`. -/
def Platform.newRules (P : Platform) (space : SpaceId) (maxContextRecords : UInt32) :
    VerifierRules :=
  { space, maxContextRecords
    kindSchemaMap := P.frozenKindSchemaMap
    allowedSummaryTypes := allSummaryTypes }

/-- The rules use the frozen map from schemas to kinds. -/
def Platform.Frozen (P : Platform) (rules : VerifierRules) : Prop :=
  rules.kindSchemaMap = P.frozenKindSchemaMap

end Bellbook
