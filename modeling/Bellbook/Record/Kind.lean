import Bellbook.Base.Serde

/-!
# Kinds and the other enumerations (`record/kind.rs`)

Every enumeration of the wire format, under its serialized names, with the normative table of which
author types may produce which kind.
-/

namespace Bellbook

inductive Kind where
  | request | action | response | result | summary | approval | capability | usage | refusal
  | verdict | plan | retraction | candidate | evaluation | selection | requirement
  deriving DecidableEq, Repr

instance : Ord Kind := ⟨compareOn Kind.ctorIdx⟩

instance : Std.TransOrd Kind := inferInstanceAs (Std.TransCmp (compareOn Kind.ctorIdx))

instance : Std.LawfulEqOrd Kind where
  eq_of_compare {a b} h := by
    have hidx : a.ctorIdx = b.ctorIdx := Std.LawfulEqOrd.eq_of_compare (α := Nat) h
    cases a <;> cases b <;> first | rfl | cases hidx

instance : UnitEnum Kind where
  name
    | .request => "Request" | .action => "Action" | .response => "Response" | .result => "Result"
    | .summary => "Summary" | .approval => "Approval" | .capability => "Capability"
    | .usage => "Usage" | .refusal => "Refusal" | .verdict => "Verdict" | .plan => "Plan"
    | .retraction => "Retraction" | .candidate => "Candidate" | .evaluation => "Evaluation"
    | .selection => "Selection" | .requirement => "Requirement"
  variants :=
    [.request, .action, .response, .result, .summary, .approval, .capability, .usage, .refusal,
      .verdict, .plan, .retraction, .candidate, .evaluation, .selection, .requirement]
  find_name a := by cases a <;> decide

/-- Typed edge from a record to an earlier one. -/
inductive RefType where
  | cause | use | require | replace
  deriving DecidableEq, Repr

instance : UnitEnum RefType where
  name
    | .cause => "Cause" | .use => "Use" | .require => "Require" | .replace => "Replace"
  variants := [.cause, .use, .require, .replace]
  find_name a := by cases a <;> decide

/-- `type_ as u8`. -/
def RefType.ordinal : RefType → Nat
  | .cause => 0
  | .use => 1
  | .require => 2
  | .replace => 3

/-- `Use` and `Require` are epistemic dependence; `Cause` and `Replace` are provenance. -/
def RefType.epistemic : RefType → Bool
  | .use | .require => true
  | .cause | .replace => false

inductive AuthorType where
  | user | provider | system | executor | verifier
  deriving DecidableEq, Repr

instance : UnitEnum AuthorType where
  name
    | .user => "User" | .provider => "Provider" | .system => "System" | .executor => "Executor"
    | .verifier => "Verifier"
  variants := [.user, .provider, .system, .executor, .verifier]
  find_name a := by cases a <;> decide

/-- `allowed_author_types`. -/
def allowedAuthorTypes : Kind → List AuthorType
  | .request => [.user]
  | .action => [.provider]
  | .response => [.provider]
  | .result => [.executor]
  | .summary => [.provider]
  | .approval => [.user]
  | .capability => [.user, .system]
  | .usage => [.provider, .system]
  | .refusal => [.user, .system]
  | .verdict => [.verifier]
  | .plan => [.provider]
  | .retraction => [.user, .provider, .system]
  | .candidate => [.user, .provider, .executor, .system]
  | .evaluation => [.user, .provider, .executor, .system]
  | .selection => [.user, .provider, .system]
  | .requirement => [.user, .provider, .system]

/-- `requires_registered_author`. -/
def requiresRegisteredAuthor : Kind → Bool
  | .verdict => false
  | _ => true

inductive VerdictResult where
  | accept | reject
  deriving DecidableEq, Repr

instance : UnitEnum VerdictResult where
  name
    | .accept => "Accept" | .reject => "Reject"
  variants := [.accept, .reject]
  find_name a := by cases a <;> decide

inductive ReasonCode where
  | unknownSchema | kindSchemaMismatch | signatureMissing | signatureInvalid | refUnresolved
  | refCrossSpace | requestMissing | capabilityMissing | capabilityDenied | approvalMissing
  | approvalExpired | actionClosed | replacementInvalid | externalReceiptRequired
  | evidenceBelowThreshold | refused | invalidPayload | invalidCheckpoint | authorRoleInvalid
  | authorityRefMissing | sourceBindingInvalid | lineageInvalid | payloadRefUnresolved
  | evaluationInvalid | selectionInvalid | reaffirmationInvalid | artifactRefInvalid
  | requirementInvalid
  deriving DecidableEq, Repr

instance : UnitEnum ReasonCode where
  name
    | .unknownSchema => "UnknownSchema"
    | .kindSchemaMismatch => "KindSchemaMismatch"
    | .signatureMissing => "SignatureMissing"
    | .signatureInvalid => "SignatureInvalid"
    | .refUnresolved => "RefUnresolved"
    | .refCrossSpace => "RefCrossSpace"
    | .requestMissing => "RequestMissing"
    | .capabilityMissing => "CapabilityMissing"
    | .capabilityDenied => "CapabilityDenied"
    | .approvalMissing => "ApprovalMissing"
    | .approvalExpired => "ApprovalExpired"
    | .actionClosed => "ActionClosed"
    | .replacementInvalid => "ReplacementInvalid"
    | .externalReceiptRequired => "ExternalReceiptRequired"
    | .evidenceBelowThreshold => "EvidenceBelowThreshold"
    | .refused => "Refused"
    | .invalidPayload => "InvalidPayload"
    | .invalidCheckpoint => "InvalidCheckpoint"
    | .authorRoleInvalid => "AuthorRoleInvalid"
    | .authorityRefMissing => "AuthorityRefMissing"
    | .sourceBindingInvalid => "SourceBindingInvalid"
    | .lineageInvalid => "LineageInvalid"
    | .payloadRefUnresolved => "PayloadRefUnresolved"
    | .evaluationInvalid => "EvaluationInvalid"
    | .selectionInvalid => "SelectionInvalid"
    | .reaffirmationInvalid => "ReaffirmationInvalid"
    | .artifactRefInvalid => "ArtifactRefInvalid"
    | .requirementInvalid => "RequirementInvalid"
  variants :=
    [.unknownSchema, .kindSchemaMismatch, .signatureMissing, .signatureInvalid, .refUnresolved,
      .refCrossSpace, .requestMissing, .capabilityMissing, .capabilityDenied, .approvalMissing,
      .approvalExpired, .actionClosed, .replacementInvalid, .externalReceiptRequired,
      .evidenceBelowThreshold, .refused, .invalidPayload, .invalidCheckpoint, .authorRoleInvalid,
      .authorityRefMissing, .sourceBindingInvalid, .lineageInvalid, .payloadRefUnresolved,
      .evaluationInvalid, .selectionInvalid, .reaffirmationInvalid, .artifactRefInvalid,
      .requirementInvalid]
  find_name a := by cases a <;> decide

inductive CapabilityMode where
  | auto | ask | deny
  deriving DecidableEq, Repr

instance : UnitEnum CapabilityMode where
  name
    | .auto => "Auto" | .ask => "Ask" | .deny => "Deny"
  variants := [.auto, .ask, .deny]
  find_name a := by cases a <;> decide

inductive ExecMode where
  | internal | external
  deriving DecidableEq, Repr

instance : UnitEnum ExecMode where
  name
    | .internal => "Internal" | .external => "External"
  variants := [.internal, .external]
  find_name a := by cases a <;> decide

inductive ResultStatus where
  | success | failure
  deriving DecidableEq, Repr

instance : UnitEnum ResultStatus where
  name
    | .success => "Success" | .failure => "Failure"
  variants := [.success, .failure]
  find_name a := by cases a <;> decide

inductive SummaryType where
  | procedure | pattern | lesson | stateSnapshot
  deriving DecidableEq, Repr

instance : Ord SummaryType := ⟨compareOn SummaryType.ctorIdx⟩

instance : Std.TransOrd SummaryType := inferInstanceAs (Std.TransCmp (compareOn SummaryType.ctorIdx))

instance : Std.LawfulEqOrd SummaryType where
  eq_of_compare {a b} h := by
    have hidx : a.ctorIdx = b.ctorIdx := Std.LawfulEqOrd.eq_of_compare (α := Nat) h
    cases a <;> cases b <;> first | rfl | cases hidx

instance : UnitEnum SummaryType where
  name
    | .procedure => "Procedure" | .pattern => "Pattern" | .lesson => "Lesson"
    | .stateSnapshot => "StateSnapshot"
  variants := [.procedure, .pattern, .lesson, .stateSnapshot]
  find_name a := by cases a <;> decide

inductive UsageOutcome where
  | done | notDone | noChange
  deriving DecidableEq, Repr

instance : UnitEnum UsageOutcome where
  name
    | .done => "Done" | .notDone => "NotDone" | .noChange => "NoChange"
  variants := [.done, .notDone, .noChange]
  find_name a := by cases a <;> decide

inductive RefusalTarget where
  | action | request | verifiedEffect
  deriving DecidableEq, Repr

instance : UnitEnum RefusalTarget where
  name
    | .action => "Action" | .request => "Request" | .verifiedEffect => "VerifiedEffect"
  variants := [.action, .request, .verifiedEffect]
  find_name a := by cases a <;> decide

end Bellbook
