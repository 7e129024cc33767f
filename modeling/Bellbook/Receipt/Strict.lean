import Bellbook.Receipt.Validate

/-!
# Rules and states are bound by their hashes (`base/canonical.rs`, `verify/rules.rs`, `state/state.rs`)

* The canonical text of a state or of rules determines it: the sequences and objects that their maps
  and sets are written as determine these (`Encodes.set`, `Encodes.pairs`).
* The decoders of the rules refuse repetitions: a set, a map or a pair-encoded map is read only if no
  two of its entries are read as the same member or key (`nodup_of_setOf`, `nodup_of_mapOf`).
-/

namespace Bellbook

open Std

/-! ## Texts that determine a value -/

instance : LawfulSerialize UInt32 where
  floatFree n := LawfulSerialize.floatFree n.toNat
  canon_inj h := UInt32.toNat_inj.mp (LawfulSerialize.canon_inj (α := Nat) h)

instance : LawfulSerialize Bool where
  floatFree _ := by simp [toValue, Json.FloatFree]
  canon_inj h := by simpa [toValue, Json.canon] using h

instance : LawfulSerialize (Option ActorId) where
  floatFree o := by
    cases o with
    | none => trivial
    | some a => exact LawfulSerialize.floatFree a
  canon_inj {a b} h := by
    cases a <;> cases b <;> simp_all [toValue, Json.canon]

instance : LawfulSerialize UsageOutcomeCounts where
  floatFree c := ⟨LawfulSerialize.floatFree c.done, LawfulSerialize.floatFree c.notDone,
    LawfulSerialize.floatFree c.noChange, trivial⟩
  canon_inj {a b} h := by
    have hdone : a.done = b.done := LawfulSerialize.canon_inj
      (canon_field_eq h (k := "done") (by simp) (by simp) (by simp))
    have hnotDone : a.notDone = b.notDone := LawfulSerialize.canon_inj
      (canon_field_eq h (k := "not_done") (by simp) (by simp) (by simp))
    have hnoChange : a.noChange = b.noChange := LawfulSerialize.canon_inj
      (canon_field_eq h (k := "no_change") (by simp) (by simp) (by simp))
    cases a; cases b
    simp_all

/-- An encoder whose trees have no doubles and determine the value. -/
structure Encodes {α : Type} (f : α → Json) : Prop where
  floatFree : ∀ a, (f a).FloatFree
  canon_inj : ∀ a b, (f a).canon = (f b).canon → a = b

theorem encodes_toValue (α : Type) [Serialize α] [LawfulSerialize α] : Encodes (toValue : α → Json) :=
  ⟨LawfulSerialize.floatFree, fun _ _ => LawfulSerialize.canon_inj⟩

section Encoders

variable {α β γ : Type}

theorem Encodes.pair {f : α → Json} {g : β → Json} (hf : Encodes f) (hg : Encodes g) :
    Encodes fun p : α × β => .array [f p.1, g p.2] where
  floatFree p := ⟨hf.floatFree p.1, hg.floatFree p.2, trivial⟩
  canon_inj p q h := by
    simp only [Json.canon, canonItems, Json.array.injEq, List.cons.injEq, and_true] at h
    exact Prod.ext (hf.canon_inj _ _ h.1) (hg.canon_inj _ _ h.2)

theorem Encodes.triple {f : α → Json} {g : β → Json} {k : γ → Json} (hf : Encodes f) (hg : Encodes g)
    (hk : Encodes k) : Encodes fun p : α × β × γ => .array [f p.1, g p.2.1, k p.2.2] where
  floatFree p := ⟨hf.floatFree p.1, hg.floatFree p.2.1, hk.floatFree p.2.2, trivial⟩
  canon_inj p q h := by
    simp only [Json.canon, canonItems, Json.array.injEq, List.cons.injEq, and_true] at h
    exact Prod.ext (hf.canon_inj _ _ h.1) (Prod.ext (hg.canon_inj _ _ h.2.1) (hk.canon_inj _ _ h.2.2))

theorem Encodes.list {f : α → Json} (hf : Encodes f) :
    Encodes fun as : List α => .array (as.map f) where
  floatFree as := by
    show FloatFreeItems (as.map f)
    induction as with
    | nil => trivial
    | cons a as ih => exact ⟨hf.floatFree a, ih⟩
  canon_inj as bs h := by
    simp only [Json.canon, Json.array.injEq, canonItems_eq_map, List.map_map] at h
    exact List.map_injective_iff.mpr (fun a b => hf.canon_inj a b) h

variable [Ord α] [TransOrd α] [LawfulEqOrd α]

/-- A set is determined by the sequence of its members. -/
theorem Encodes.set [Serialize α] [LawfulSerialize α] :
    Encodes (setValue : ExtTreeSet α → Json) where
  floatFree s := LawfulSerialize.floatFree s.toList
  canon_inj s t h := by
    have hlist : s.toList = t.toList := LawfulSerialize.canon_inj h
    refine ExtTreeSet.ext_mem fun a => ?_
    rw [← ExtTreeSet.mem_toList, hlist, ExtTreeSet.mem_toList]

theorem extTreeMap_eq_of_toList_eq {m n : ExtTreeMap α β} (h : m.toList = n.toList) : m = n := by
  refine ExtTreeMap.ext_getElem? fun k => Option.ext fun v => ?_
  rw [← ExtTreeMap.mem_toList_iff_getElem?_eq_some, h, ExtTreeMap.mem_toList_iff_getElem?_eq_some]

/-- A map is determined by the sequence of its pairs. -/
theorem Encodes.pairs {key : α → Json} {value : β → Json} (hkey : Encodes key)
    (hvalue : Encodes value) : Encodes (mapAsPairs key value) := by
  have hpairs : ∀ m : ExtTreeMap α β, mapAsPairs key value m =
      .array (m.toList.map fun p => .array [key p.1, value p.2]) := by
    intro m
    simp only [mapAsPairs, toValue, List.map_map, tuple2]
    rfl
  constructor
  · intro m
    rw [hpairs]
    exact (hkey.pair hvalue).list.floatFree _
  · intro m n h
    rw [hpairs, hpairs] at h
    exact extTreeMap_eq_of_toList_eq ((hkey.pair hvalue).list.canon_inj _ _ h)

end Encoders

/-! ## States -/

theorem encodes_id : Encodes (toValue : RecordId → Json) := encodes_toValue RecordId

theorem encodes_capabilityKey : Encodes CapabilityKey.toJson :=
  (encodes_toValue ActorId).triple (encodes_toValue String) (encodes_toValue ScopeId)

theorem encodes_classApprovalKey : Encodes ClassApprovalKey.toJson :=
  (encodes_toValue String).triple (encodes_toValue ScopeId) (encodes_toValue (Option ActorId))

theorem encodes_tuple2 {α β : Type} [Serialize α] [LawfulSerialize α] [Serialize β]
    [LawfulSerialize β] : Encodes fun p : α × β => tuple2 p.1 p.2 :=
  (encodes_toValue α).pair (encodes_toValue β)

theorem encodes_idPairs {β : Type} [Serialize β] [LawfulSerialize β] :
    Encodes (idPairs : IdMap β → Json) :=
  encodes_id.pairs (encodes_toValue β)

/-- **The canonical text of a state determines it.** -/
instance : LawfulSerialize State where
  floatFree s :=
    ⟨Encodes.set.floatFree s.acceptedRecords,
      Encodes.set.floatFree s.activeRequests,
      (encodes_capabilityKey.pairs encodes_id).floatFree s.activeCapabilities,
      encodes_idPairs.floatFree s.validApprovals,
      (encodes_classApprovalKey.pairs encodes_id).floatFree s.classApprovals,
      Encodes.set.floatFree s.openActions,
      encodes_idPairs.floatFree s.actionToRequest,
      encodes_idPairs.floatFree s.activeSummaries,
      Encodes.set.floatFree s.replacedRecords,
      encodes_idPairs.floatFree s.requestOpenActionCount,
      (encodes_tuple2.pairs (encodes_toValue UsageOutcomeCounts)).floatFree s.usageCounts,
      encodes_idPairs.floatFree s.activePlans,
      encodes_idPairs.floatFree s.responseTurns,
      (encodes_id.pairs encodes_capabilityKey).floatFree s.capabilityIndex,
      encodes_idPairs.floatFree s.exactApprovalIndex,
      (encodes_id.pairs encodes_classApprovalKey).floatFree s.classApprovalIndex,
      Encodes.set.floatFree s.retractedRecords,
      Encodes.set.floatFree s.taintedRecords,
      (encodes_id.pairs Encodes.set).floatFree s.epistemicDependents,
      (encodes_id.pairs Encodes.set).floatFree s.requirementKeys,
      (encodes_id.pairs encodes_tuple2).floatFree s.requirementIndex,
      (encodes_toValue Time).floatFree s.appliedUpTo, trivial⟩
  canon_inj {a b} h := by
    have field {α : Type} {f : α → Json} (hf : Encodes f) (k : String) {x y : α}
        (hx : (k, f x) ∈ _) (hy : (k, f y) ∈ _) : x = y :=
      hf.canon_inj _ _ (canon_field_eq h hx hy (by simp))
    have hacceptedRecords : a.acceptedRecords = b.acceptedRecords :=
      field Encodes.set "accepted_records" (by simp) (by simp)
    have hactiveRequests : a.activeRequests = b.activeRequests :=
      field Encodes.set "active_requests" (by simp) (by simp)
    have hactiveCapabilities : a.activeCapabilities = b.activeCapabilities :=
      field (encodes_capabilityKey.pairs encodes_id) "active_capabilities" (by simp) (by simp)
    have hvalidApprovals : a.validApprovals = b.validApprovals :=
      field encodes_idPairs "valid_approvals" (by simp) (by simp)
    have hclassApprovals : a.classApprovals = b.classApprovals :=
      field (encodes_classApprovalKey.pairs encodes_id) "class_approvals" (by simp) (by simp)
    have hopenActions : a.openActions = b.openActions :=
      field Encodes.set "open_actions" (by simp) (by simp)
    have hactionToRequest : a.actionToRequest = b.actionToRequest :=
      field encodes_idPairs "action_to_request" (by simp) (by simp)
    have hactiveSummaries : a.activeSummaries = b.activeSummaries :=
      field encodes_idPairs "active_summaries" (by simp) (by simp)
    have hreplacedRecords : a.replacedRecords = b.replacedRecords :=
      field Encodes.set "replaced_records" (by simp) (by simp)
    have hrequestOpenActionCount : a.requestOpenActionCount = b.requestOpenActionCount :=
      field encodes_idPairs "request_open_action_count" (by simp) (by simp)
    have husageCounts : a.usageCounts = b.usageCounts :=
      field (encodes_tuple2.pairs (encodes_toValue UsageOutcomeCounts)) "usage_counts" (by simp) (by simp)
    have hactivePlans : a.activePlans = b.activePlans :=
      field encodes_idPairs "active_plans" (by simp) (by simp)
    have hresponseTurns : a.responseTurns = b.responseTurns :=
      field encodes_idPairs "response_turns" (by simp) (by simp)
    have hcapabilityIndex : a.capabilityIndex = b.capabilityIndex :=
      field (encodes_id.pairs encodes_capabilityKey) "capability_index" (by simp) (by simp)
    have hexactApprovalIndex : a.exactApprovalIndex = b.exactApprovalIndex :=
      field encodes_idPairs "exact_approval_index" (by simp) (by simp)
    have hclassApprovalIndex : a.classApprovalIndex = b.classApprovalIndex :=
      field (encodes_id.pairs encodes_classApprovalKey) "class_approval_index" (by simp) (by simp)
    have hretractedRecords : a.retractedRecords = b.retractedRecords :=
      field Encodes.set "retracted_records" (by simp) (by simp)
    have htaintedRecords : a.taintedRecords = b.taintedRecords :=
      field Encodes.set "tainted_records" (by simp) (by simp)
    have hepistemicDependents : a.epistemicDependents = b.epistemicDependents :=
      field (encodes_id.pairs Encodes.set) "epistemic_dependents" (by simp) (by simp)
    have hrequirementKeys : a.requirementKeys = b.requirementKeys :=
      field (encodes_id.pairs Encodes.set) "requirement_keys" (by simp) (by simp)
    have hrequirementIndex : a.requirementIndex = b.requirementIndex :=
      field (encodes_id.pairs encodes_tuple2) "requirement_index" (by simp) (by simp)
    have happliedUpTo : a.appliedUpTo = b.appliedUpTo :=
      field (encodes_toValue Time) "applied_up_to" (by simp) (by simp)
    cases a; cases b
    simp_all

/-! ## Rules -/

/-- **The canonical text of rules determines them**: it is read back. -/
instance : LawfulSerialize VerifierRules where
  floatFree := floatFree_rules
  canon_inj {a b} h := by
    have ha := fromValue_canon a
    rw [h, fromValue_canon b] at ha
    exact (Option.some.inj ha).symm

/-! ## Repetitions -/

section Repetitions

variable {α β γ : Type}

/-- Two entries of the list are read as the same thing. -/
def Repeats (read : α → Option β) (l : List α) : Prop :=
  ∃ (i j : Nat) (b : β), i < j ∧ l[i]?.bind read = some b ∧ l[j]?.bind read = some b

theorem map_of_mapM {f : α → Option β} {l : List α} {bs : List β} (h : l.mapM f = some bs) :
    l.map f = bs.map some := by
  induction l generalizing bs with
  | nil =>
    cases h
    rfl
  | cons a l ih =>
    rw [List.mapM_cons] at h
    obtain ⟨b, hb, hrest⟩ := Option.bind_eq_some_iff.mp h
    obtain ⟨cs, hcs, heq⟩ := Option.bind_eq_some_iff.mp hrest
    cases heq
    rw [List.map_cons, List.map_cons, hb, ih hcs]

/-- What repeats is not read as distinct things. -/
theorem Repeats.not_nodup {f : α → Option β} {read : α → Option γ} (key : β → γ)
    (hread : ∀ a b, f a = some b → read a = some (key b)) {l : List α} {bs : List β}
    (h : l.mapM f = some bs) (hrep : Repeats read l) : ¬(bs.map key).Nodup := by
  obtain ⟨i, j, c, hij, hi, hj⟩ := hrep
  have hat : ∀ k : Nat, l[k]?.bind read = some c → (bs.map key)[k]? = some c := by
    intro k hk
    obtain ⟨a, ha, hac⟩ := Option.bind_eq_some_iff.mp hk
    have hmap := congrArg (·[k]?) (map_of_mapM h)
    simp only [List.getElem?_map, ha, Option.map_some] at hmap
    obtain ⟨b, hb, hfa⟩ := Option.map_eq_some_iff.mp hmap.symm
    rw [List.getElem?_map, hb, Option.map_some, ← hac, hread a b hfa.symm]
  intro hnodup
  have hlt := (List.getElem?_eq_some_iff.mp (hat i hi)).1
  have heq := (List.getElem?_inj hlt hnodup).mp ((hat i hi).trans (hat j hj).symm)
  omega

variable [Ord α] [TransOrd α]

/-! Each strict decoder refuses repetitions. -/

theorem strictSet_repeats [Deserialize α] {items : List Json}
    (h : Repeats (fromValue : Json → Option α) items) :
    (strictSet (.array items) : Option (ExtTreeSet α)) = none := by
  by_contra hsome
  obtain ⟨s, hs⟩ := Option.ne_none_iff_exists'.mp hsome
  obtain ⟨as, has, hset⟩ := Option.bind_eq_some_iff.mp hs
  refine h.not_nodup id (fun _ _ h => h) has ?_
  rw [List.map_id]
  exact nodup_of_setOf hset

theorem strictMap_repeats {key : String → Option α} {value : Json → Option β}
    {ms : List (String × Json)} (h : Repeats (fun m => key m.1) ms) :
    strictMap key value (.object ms) = none := by
  by_contra hsome
  obtain ⟨m, hm⟩ := Option.ne_none_iff_exists'.mp hsome
  obtain ⟨ps, hps, hmap⟩ := Option.bind_eq_some_iff.mp hm
  refine h.not_nodup Prod.fst ?_ hps (nodup_of_mapOf hmap)
  intro m p hp
  obtain ⟨k, hk, v, -, rfl⟩ := by
    simpa only [fromMember, Option.bind_eq_some_iff, Option.map_eq_some_iff] using hp
  exact hk

/-- The key of a `[key, value]` pair. -/
def pairKey (α : Type) [Deserialize α] : Json → Option α
  | .array [k, _] => fromValue k
  | _ => none

theorem pairMap_repeats [Deserialize α] [Deserialize β] {items : List Json}
    (h : Repeats (pairKey α) items) : (pairMap (.array items) : Option (ExtTreeMap α β)) = none := by
  by_contra hsome
  obtain ⟨m, hm⟩ := Option.ne_none_iff_exists'.mp hsome
  obtain ⟨ps, hps, hmap⟩ := Option.bind_eq_some_iff.mp hm
  refine h.not_nodup Prod.fst ?_ hps (nodup_of_mapOf hmap)
  intro item p hp
  unfold fromPair at hp
  split at hp
  · next k v =>
    obtain ⟨a, ha, b, -, rfl⟩ := by
      simpa only [Option.bind_eq_some_iff, Option.map_eq_some_iff] using hp
    exact ha
  · cases hp

/-- A map with a value that cannot be read cannot be read. -/
theorem strictMap_value {key : String → Option α} {value : Json → Option β}
    {ms : List (String × Json)} {m : String × Json} (hm : m ∈ ms) (h : value m.2 = none) :
    strictMap key value (.object ms) = none := by
  by_contra hsome
  obtain ⟨t, ht⟩ := Option.ne_none_iff_exists'.mp hsome
  obtain ⟨ps, hps, -⟩ := Option.bind_eq_some_iff.mp ht
  have hmem : fromMember key value m ∈ ms.map (fromMember key value) := List.mem_map_of_mem hm
  rw [map_of_mapM hps] at hmem
  obtain ⟨p, -, hp⟩ := List.mem_map.mp hmem
  rw [fromMember, h] at hp
  cases hkey : key m.1 <;> simp [hkey] at hp

end Repetitions

/-- The value of this field of the rules repeats a key or a member. -/
inductive Repetition : String → Json → Prop
  | kindSchemaMap {items : List Json} :
      Repeats (pairKey Hash256) items → Repetition "kind_schema_map" (.array items)
  | signatureRequiredKinds {items : List Json} :
      Repeats (fromValue : Json → Option Kind) items →
      Repetition "signature_required_kinds" (.array items)
  | authorKeys {ms : List (String × Json)} :
      Repeats (fun m => some m.1) ms → Repetition "author_keys" (.object ms)
  | pinnedKeys {ms : List (String × Json)} {actor : ActorId} {keys : List Json} :
      (actor, .array keys) ∈ ms → Repeats (fromValue : Json → Option Hash256) keys →
      Repetition "author_keys" (.object ms)
  | authorRoles {ms : List (String × Json)} :
      Repeats (fun m => some m.1) ms → Repetition "author_roles" (.object ms)
  | adminRetractionActors {items : List Json} :
      Repeats (fromValue : Json → Option ActorId) items →
      Repetition "admin_retraction_actors" (.array items)
  | allowedSummaryTypes {items : List Json} :
      Repeats (fromValue : Json → Option SummaryType) items →
      Repetition "allowed_summary_types" (.array items)
  | evidenceThresholds {ms : List (String × Json)} :
      Repeats (fun m => (variantKey m.1 : Option Kind)) ms →
      Repetition "evidence_thresholds" (.object ms)
  | reaffirmationActors {items : List Json} :
      Repeats (fromValue : Json → Option ActorId) items →
      Repetition "reaffirmation_actors" (.array items)

/-- The document gives this value to the field of the rules, by name or by position. -/
def Json.HasRule (v : Json) (name : String) (field : Json) : Prop :=
  match v with
  | .object ms => (name, field) ∈ ms
  | .array items => (name, field) ∈ ruleNames.zip items
  | _ => False

theorem nodup_ruleNames : ruleNames.Nodup := by decide

theorem map_fst_zip_sublist {α β : Type} (as : List α) (bs : List β) :
    ((as.zip bs).map Prod.fst).Sublist as := by
  induction as generalizing bs with
  | nil => simp
  | cons a as ih =>
    cases bs with
    | nil => simp
    | cons b bs => simpa using ih bs

/-- The decoder of the rules looks the field up. -/
theorem Json.HasRule.lookup {v : Json} {name : String} {field : Json} {f : Fields}
    (h : v.HasRule name field) (hf : structFields true ruleNames v = some f) :
    f.members.lookup name = some field := by
  cases v with
  | object ms =>
    simp only [structFields, Option.ite_none_right_eq_some, Option.some.injEq, forall_const] at hf
    obtain ⟨⟨hknown, hnodup⟩, rfl⟩ := hf
    -- no member has an unknown name, so that no name stands twice
    rw [List.filter_eq_self.mpr] at hnodup
    · exact lookup_of_mem hnodup h
    · intro k hk
      obtain ⟨m, hm, rfl⟩ := List.mem_map.mp hk
      simpa using hknown m hm
  | array items =>
    simp only [structFields, Option.ite_none_right_eq_some, Option.some.injEq] at hf
    obtain ⟨-, rfl⟩ := hf
    exact lookup_of_mem (nodup_ruleNames.sublist (map_fst_zip_sublist _ _)) h
  | _ => cases h

/-- What the decoder has read when it returns rules. -/
theorem fromValue_rules {v : Json} {r : VerifierRules} (h : fromValue v = some r) :
    ∃ f, structFields true ruleNames v = some f ∧
      f.requiredWith "kind_schema_map" pairMap = some r.kindSchemaMap ∧
      f.requiredWith "signature_required_kinds" strictSet = some r.signatureRequiredKinds ∧
      f.requiredWith "author_keys" (strictMap some strictSet) = some r.authorKeys ∧
      f.requiredWith "author_roles" (strictMap some fromValue) = some r.authorRoles ∧
      f.requiredWith "admin_retraction_actors" strictSet = some r.adminRetractionActors ∧
      f.requiredWith "allowed_summary_types" strictSet = some r.allowedSummaryTypes ∧
      f.requiredWith "evidence_thresholds" (strictMap variantKey fromValue) =
        some r.evidenceThresholds ∧
      f.defaultedWith "reaffirmation_actors" strictSet ∅ = some r.reaffirmationActors := by
  obtain ⟨f, hf, h⟩ := Option.bind_eq_some_iff.mp h
  obtain ⟨space, -, h⟩ := Option.bind_eq_some_iff.mp h
  obtain ⟨kindSchemaMap, hkindSchemaMap, h⟩ := Option.bind_eq_some_iff.mp h
  obtain ⟨signatureRequiredKinds, hsignatureRequiredKinds, h⟩ := Option.bind_eq_some_iff.mp h
  obtain ⟨authorKeys, hauthorKeys, h⟩ := Option.bind_eq_some_iff.mp h
  obtain ⟨authorRoles, hauthorRoles, h⟩ := Option.bind_eq_some_iff.mp h
  obtain ⟨adminRetractionActors, hadminRetractionActors, h⟩ := Option.bind_eq_some_iff.mp h
  obtain ⟨allowedSummaryTypes, hallowedSummaryTypes, h⟩ := Option.bind_eq_some_iff.mp h
  obtain ⟨evidenceThresholds, hevidenceThresholds, h⟩ := Option.bind_eq_some_iff.mp h
  obtain ⟨maxContextRecords, -, h⟩ := Option.bind_eq_some_iff.mp h
  obtain ⟨minBinding, -, h⟩ := Option.bind_eq_some_iff.mp h
  obtain ⟨selectionRequiresEvaluation, -, h⟩ := Option.bind_eq_some_iff.mp h
  obtain ⟨reaffirmationActors, hreaffirmationActors, h⟩ := Option.bind_eq_some_iff.mp h
  obtain ⟨maxConsidered, -, h⟩ := Option.bind_eq_some_iff.mp h
  obtain ⟨selectionRequiresApproval, -, h⟩ := Option.bind_eq_some_iff.mp h
  obtain ⟨rejectCompromisedContinuation, -, h⟩ := Option.bind_eq_some_iff.mp h
  cases h
  exact ⟨f, hf, hkindSchemaMap, hsignatureRequiredKinds, hauthorKeys, hauthorRoles,
    hadminRetractionActors, hallowedSummaryTypes, hevidenceThresholds, hreaffirmationActors⟩

theorem requiredWith_of_lookup {α : Type} {f : Fields} {name : String} {field : Json} {a : α}
    {decoder : Json → Option α} (h : f.requiredWith name decoder = some a)
    (hfield : f.members.lookup name = some field) : decoder field ≠ none := by
  rw [Fields.requiredWith, hfield, Option.bind_some] at h
  rw [h]
  exact Option.some_ne_none a

/-- **A document with a repetition is no rules.** -/
theorem fromValue_repetition {v : Json} {name : String} {field : Json} (h : v.HasRule name field)
    (hrep : Repetition name field) : (fromValue v : Option VerifierRules) = none := by
  by_contra hsome
  obtain ⟨r, hr⟩ := Option.ne_none_iff_exists'.mp hsome
  obtain ⟨f, hf, hmap, hkinds, hkeys, hroles, hadmins, htypes, hthresholds, hactors⟩ :=
    fromValue_rules hr
  have hfield := h.lookup hf
  cases hrep with
  | kindSchemaMap hrep => exact requiredWith_of_lookup hmap hfield (pairMap_repeats hrep)
  | signatureRequiredKinds hrep => exact requiredWith_of_lookup hkinds hfield (strictSet_repeats hrep)
  | authorKeys hrep => exact requiredWith_of_lookup hkeys hfield (strictMap_repeats hrep)
  | pinnedKeys hactor hrep =>
    exact requiredWith_of_lookup hkeys hfield (strictMap_value hactor (strictSet_repeats hrep))
  | authorRoles hrep => exact requiredWith_of_lookup hroles hfield (strictMap_repeats hrep)
  | adminRetractionActors hrep => exact requiredWith_of_lookup hadmins hfield (strictSet_repeats hrep)
  | allowedSummaryTypes hrep => exact requiredWith_of_lookup htypes hfield (strictSet_repeats hrep)
  | evidenceThresholds hrep => exact requiredWith_of_lookup hthresholds hfield (strictMap_repeats hrep)
  | reaffirmationActors hrep =>
    simp only [Fields.defaultedWith, hfield, strictSet_repeats hrep, reduceCtorEq] at hactors

/-- `serde_json` reads the canonical text of rules back as the tree it was written from. -/
def Platform.ReadsRules (P : Platform) : Prop :=
  ∀ (r : VerifierRules) (bytes : Bytes), P.canonicalJson r = some bytes →
    P.readJson bytes = some (toValue r).canon

/-- **Rules and states are bound by their canonical bytes, and the strict codecs are exact.** Rules
with the same canonical bytes are the same, and so are states; rules are read back from their
canonical bytes; and a document that repeats a key or a member in a map or a set of the rules is
refused, wherever it stands. -/
theorem rules_and_state_bound {P : Platform} (hread : P.ReadsRules) :
    (∀ (r₁ r₂ : VerifierRules) bytes, P.canonicalJson r₁ = some bytes →
      P.canonicalJson r₂ = some bytes → r₁ = r₂) ∧
    (∀ (s₁ s₂ : State) bytes, P.canonicalJson s₁ = some bytes → P.canonicalJson s₂ = some bytes →
      s₁ = s₂) ∧
    (∀ (r : VerifierRules) bytes, P.canonicalJson r = some bytes →
      P.decode VerifierRules bytes = some r) ∧
    ∀ bytes v name field, P.readJson bytes = some v → v.HasRule name field → Repetition name field →
      P.decode VerifierRules bytes = none := by
  refine ⟨fun _ _ _ => canonicalJson_inj P, fun _ _ _ => canonicalJson_inj P, ?_, ?_⟩
  · intro r bytes hbytes
    rw [Platform.decode, hread r bytes hbytes, Option.bind_some, fromValue_canon]
  · intro bytes v name field hv hfield hrep
    rw [Platform.decode, hv, Option.bind_some, fromValue_repetition hfield hrep]

theorem reference_readsRules : reference.ReadsRules := by
  intro r bytes hbytes
  obtain ⟨text, htext, rfl⟩ := Option.map_eq_some_iff.mp hbytes
  exact reference_reads (LawfulSerialize.floatFree r) htext

/-- The sample rules with one kind twice among those that need a signature. -/
def repeatingRules : Json :=
  .object (("signature_required_kinds", .array [.string "Action", .string "Action"]) ::
    (ruleMembers sampleRules).filter fun m => m.1 ≠ "signature_required_kinds")

theorem repeatingRules_hasRule : repeatingRules.canon.HasRule "signature_required_kinds"
    (.array [.string "Action", .string "Action"]) := by
  rw [repeatingRules, Json.canon]
  show _ ∈ sortMembers _
  rw [mem_sortMembers, canonMembers_eq_map]
  exact List.mem_cons_self

/-- The sample rules are read back, and a document that differs from them in a repetition is refused. -/
theorem sampleRules_bound : ∃ bytes bytes', reference.canonicalJson sampleRules = some bytes ∧
    reference.decode VerifierRules bytes = some sampleRules ∧
    reference.canonicalJson repeatingRules = some bytes' ∧
    reference.decode VerifierRules bytes' = none := by
  obtain ⟨-, -, hback, hrefuse⟩ := rules_and_state_bound reference_readsRules
  have hsome : (reference.canonicalJson sampleRules).isSome = true := by decide +kernel
  have hsome' : (reference.canonicalJson repeatingRules).isSome = true := by decide +kernel
  obtain ⟨bytes, hbytes⟩ := Option.isSome_iff_exists.mp hsome
  obtain ⟨bytes', hbytes'⟩ := Option.isSome_iff_exists.mp hsome'
  refine ⟨bytes, bytes', hbytes, hback _ _ hbytes, hbytes', ?_⟩
  obtain ⟨text, htext, rfl⟩ := Option.map_eq_some_iff.mp hbytes'
  have hfree : repeatingRules.FloatFree := by
    have hrules : FloatFreeMembers (ruleMembers sampleRules) := LawfulSerialize.floatFree sampleRules
    refine ⟨⟨trivial, trivial, trivial⟩, floatFreeMembers_iff.mpr fun m hm => ?_⟩
    exact floatFreeMembers_iff.mp hrules m (List.mem_of_mem_filter hm)
  refine hrefuse _ _ _ _ (reference_reads hfree htext) repeatingRules_hasRule
    (.signatureRequiredKinds ⟨0, 1, .action, by decide, by decide, by decide⟩)

end Bellbook
