import Bellbook.Lib.Worklist
import Bellbook.Record.Record

/-!
# Effective state (`state/state.rs`)

The maps and sets derived from the accepted records of a log, field by field as in the source, and
the evidence a ref contributes under them. Maps and sets are the ordered ones of the standard
library up to extensional equality, so states can be compared and evaluated.
-/

namespace Bellbook

open Std

attribute [instance] lexOrd

/-- (actor, action class, scope). -/
abbrev CapabilityKey := ActorId × String × ScopeId

/-- (action class, scope, actor); no actor is the wildcard. -/
abbrev ClassApprovalKey := String × ScopeId × Option ActorId

instance : TransOrd CapabilityKey := instTransOrdProd
instance : LawfulEqOrd CapabilityKey := inferInstance
instance : TransOrd ClassApprovalKey := instTransOrdProd
instance : LawfulEqOrd ClassApprovalKey := inferInstance
instance : TransOrd (RecordId × String) := instTransOrdProd
instance : LawfulEqOrd (RecordId × String) := inferInstance

abbrev IdSet := ExtTreeSet RecordId
abbrev IdMap (β : Type) := ExtTreeMap RecordId β

instance : LawfulBEq IdSet := inferInstance

structure State where
  acceptedRecords : IdSet := ∅
  activeRequests : IdSet := ∅
  activeCapabilities : ExtTreeMap CapabilityKey RecordId := ∅
  validApprovals : IdMap RecordId := ∅
  classApprovals : ExtTreeMap ClassApprovalKey RecordId := ∅
  openActions : IdSet := ∅
  actionToRequest : IdMap RecordId := ∅
  activeSummaries : IdMap RecordId := ∅
  replacedRecords : IdSet := ∅
  requestOpenActionCount : IdMap Nat := ∅
  usageCounts : ExtTreeMap (RecordId × String) UsageOutcomeCounts := ∅
  activePlans : IdMap RecordId := ∅
  responseTurns : IdMap UInt32 := ∅
  capabilityIndex : IdMap CapabilityKey := ∅
  exactApprovalIndex : IdMap Hash256 := ∅
  classApprovalIndex : IdMap ClassApprovalKey := ∅
  retractedRecords : IdSet := ∅
  taintedRecords : IdSet := ∅
  epistemicDependents : IdMap IdSet := ∅
  requirementKeys : IdMap (ExtTreeSet String) := ∅
  requirementIndex : IdMap (RecordId × String) := ∅
  appliedUpTo : Time := 0
  deriving DecidableEq

/-- `State::default`. -/
def State.empty : State := {}

/-! ## Serialization -/

section Serialize

variable {α β : Type} [Ord α] [TransOrd α]

/-- A set serializes as the sequence of its members. -/
def setValue [Serialize α] (s : ExtTreeSet α) : Json := toValue s.toList

/-- `map_as_pairs`: a map serializes as the sequence of its `[key, value]` pairs. -/
def mapAsPairs (key : α → Json) (value : β → Json) (m : ExtTreeMap α β) : Json :=
  toValue (m.toList.map fun p => tuple2 (key p.1) (value p.2))

/-- A map with string keys serializes as an object. -/
def mapObject (key : α → String) (value : β → Json) (m : ExtTreeMap α β) : Json :=
  .object (m.toList.map fun p => (key p.1, value p.2))

theorem floatFree_mapObject {key : α → String} {value : β → Json} (h : ∀ b, (value b).FloatFree)
    (m : ExtTreeMap α β) : (mapObject key value m).FloatFree := by
  rw [mapObject, Json.FloatFree, floatFreeMembers_iff]
  intro x hx
  obtain ⟨p, -, rfl⟩ := List.mem_map.mp hx
  exact h p.2

end Serialize

def CapabilityKey.toJson (k : CapabilityKey) : Json := tuple3 k.1 k.2.1 k.2.2
def ClassApprovalKey.toJson (k : ClassApprovalKey) : Json := tuple3 k.1 k.2.1 k.2.2

/-- Pairs keyed by an id, with a serializable value. -/
def idPairs {β : Type} [Serialize β] (m : IdMap β) : Json := mapAsPairs toValue toValue m

instance : Serialize State where
  toValue s := .object
    [("accepted_records", setValue s.acceptedRecords),
      ("active_requests", setValue s.activeRequests),
      ("active_capabilities", mapAsPairs CapabilityKey.toJson toValue s.activeCapabilities),
      ("valid_approvals", idPairs s.validApprovals),
      ("class_approvals", mapAsPairs ClassApprovalKey.toJson toValue s.classApprovals),
      ("open_actions", setValue s.openActions),
      ("action_to_request", idPairs s.actionToRequest),
      ("active_summaries", idPairs s.activeSummaries),
      ("replaced_records", setValue s.replacedRecords),
      ("request_open_action_count", idPairs s.requestOpenActionCount),
      ("usage_counts", mapAsPairs (fun k => tuple2 k.1 k.2) toValue s.usageCounts),
      ("active_plans", idPairs s.activePlans),
      ("response_turns", idPairs s.responseTurns),
      ("capability_index", mapAsPairs toValue CapabilityKey.toJson s.capabilityIndex),
      ("exact_approval_index", idPairs s.exactApprovalIndex),
      ("class_approval_index", mapAsPairs toValue ClassApprovalKey.toJson s.classApprovalIndex),
      ("retracted_records", setValue s.retractedRecords),
      ("tainted_records", setValue s.taintedRecords),
      ("epistemic_dependents", mapAsPairs toValue setValue s.epistemicDependents),
      ("requirement_keys", mapAsPairs toValue setValue s.requirementKeys),
      ("requirement_index", mapAsPairs toValue (fun v => tuple2 v.1 v.2) s.requirementIndex),
      ("applied_up_to", toValue s.appliedUpTo)]

/-! ## Evidence of a ref -/

/-- Accepted, and neither retracted nor tainted. -/
def State.usable (s : State) (id : RecordId) : Bool :=
  id ∈ s.acceptedRecords && id ∉ s.retractedRecords && id ∉ s.taintedRecords

/-- `State::ref_evidence`: a `Use` or `Require` ref contributes its target's evidence, or the floor
when the target is rejected, retracted or tainted; other refs do not participate. -/
def State.refEvidence (s : State) (ref : Ref) (target : Record) : Option Evidence :=
  if ref.type.epistemic then
    if s.usable target.id then some target.evidence else some .assumed
  else none

@[simp] theorem State.usable_iff {s : State} {id : RecordId} :
    s.usable id = true ↔
      id ∈ s.acceptedRecords ∧ id ∉ s.retractedRecords ∧ id ∉ s.taintedRecords := by
  simp [State.usable, and_assoc]

end Bellbook
