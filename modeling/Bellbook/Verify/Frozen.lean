import Bellbook.Verify.History

/-!
# The frozen schemas

Under the frozen map from schemas to kinds, a record that passes its checks has a payload of the
type its kind is folded with, so the fold of an accepted record never fails (`applyAccepted_total`).
The schema ids have to be told apart for this: `SchemasDistinct`.
-/

namespace Bellbook

open Std

/-- No two frozen schema names have the same id. -/
def Platform.SchemasDistinct (P : Platform) : Prop :=
  ∀ a ∈ allSchemas, ∀ b ∈ allSchemas, P.schemaId a = P.schemaId b → a = b

variable {P : Platform} {rules : VerifierRules}

/-! ## Canonical text that exists -/

theorem writeItems_isSome (f : UInt64 → List Char) (items : List Json) :
    (writeItems f items).isSome = true ↔ ∀ v ∈ items, (writeJcs f v).isSome = true := by
  induction items with
  | nil => simp [writeItems]
  | cons v items ih =>
    rw [writeItems, List.forall_mem_cons, ← ih]
    cases writeJcs f v <;> simp

theorem writeJcs_array_isSome (f : UInt64 → List Char) (items : List Json) :
    (writeJcs f (.array items)).isSome = true ↔ ∀ v ∈ items, (writeJcs f v).isSome = true := by
  rw [writeJcs, Option.isSome_map, writeItems_isSome]

theorem writeJcs_object_isSome (f : UInt64 → List Char) (members : List (String × Json)) :
    (writeJcs f (.object members)).isSome = true ↔
      ∀ m ∈ members, (writeJcs f m.2).isSome = true := by
  rw [writeJcs, Option.isSome_map]
  induction members with
  | nil => simp [writeMembers]
  | cons m members ih =>
    obtain ⟨k, v⟩ := m
    rw [writeMembers, List.forall_mem_cons, ← ih]
    cases writeJcs f v <;> simp

theorem writeJcs_string_isSome (f : UInt64 → List Char) (s : String) :
    (writeJcs f (toValue s)).isSome = true := by
  simp [toValue, writeJcs]

theorem writeJcs_unit_isSome {α : Type} [UnitEnum α] (f : UInt64 → List Char) (a : α) :
    (writeJcs f (toValue a)).isSome = true := by
  simp [toValue, writeJcs]

theorem writeJcs_hash_isSome (f : UInt64 → List Char) (h : Hash256) :
    (writeJcs f (toValue h)).isSome = true := by
  show (writeJcs f (.array ((hashBytes h).map toValue))).isSome = true
  rw [writeJcs_array_isSome]
  intro v hv
  obtain ⟨b, -, rfl⟩ := List.mem_map.mp hv
  have hb : b.toNat ≤ maxSafeInteger := by
    have := b.toNat_lt
    unfold maxSafeInteger
    omega
  simp [toValue, writeJcs, writeNumber, hb]

theorem sha256Canonical_isSome {α : Type} [Serialize α] {a : α} :
    (P.sha256Canonical a).isSome = (writeJcs P.formatFinite (toValue a)).isSome := by
  simp [Platform.sha256Canonical, Platform.canonicalJson]

/-- A payload whose bytes are canonical can be serialized again. -/
theorem decode_of_decodesCanonically {α : Type} [Serialize α] [Deserialize α] {data : Bytes}
    (h : P.decodesCanonically α data = true) :
    ∃ a, P.decode α data = some a ∧ P.canonicalJson a = some data ∧
      (writeJcs P.formatFinite (toValue a)).isSome = true := by
  unfold Platform.decodesCanonically at h
  cases hd : P.decode α data with
  | none => simp [hd] at h
  | some a =>
    simp only [hd, decide_eq_true_eq] at h
    refine ⟨a, rfl, h, ?_⟩
    have := congrArg Option.isSome h
    simpa [Platform.canonicalJson] using this

theorem actionHash_isSome (author : ActorId) {data : ActionData}
    (h : (writeJcs P.formatFinite (toValue data)).isSome = true) :
    ∃ hash, P.actionHash author data = some hash := by
  rw [← Option.isSome_iff_exists]
  unfold Platform.actionHash
  rw [sha256Canonical_isSome]
  show (writeJcs _ (.array [toValue author, toValue data])).isSome = true
  rw [writeJcs_array_isSome]
  simp [h, writeJcs_string_isSome]

theorem summaryKey_isSome (data : SummaryData) : ∃ key, P.summaryKey data = some key := by
  rw [← Option.isSome_iff_exists]
  unfold Platform.summaryKey
  rw [sha256Canonical_isSome]
  show (writeJcs _ (.array [toValue data.summaryType, toValue data.subject,
    toValue data.scope])).isSome = true
  rw [writeJcs_array_isSome]
  simp [writeJcs_unit_isSome, writeJcs_hash_isSome]

theorem selectionHash_isSome (author : ActorId) (target : Option RecordId) {data : SelectionData}
    (h : (writeJcs P.formatFinite (toValue data)).isSome = true) :
    ∃ hash, P.selectionApprovalSubjectHash author target data = some hash := by
  rw [← Option.isSome_iff_exists]
  unfold Platform.selectionApprovalSubjectHash
  rw [sha256Canonical_isSome]
  show (writeJcs _ (.array [toValue selectionApprovalDomain, toValue author, toValue target,
    toValue data])).isSome = true
  rw [writeJcs_array_isSome]
  have htarget : (writeJcs P.formatFinite (toValue target)).isSome = true := by
    cases target with
    | none => rfl
    | some id => exact writeJcs_hash_isSome _ id
  simp [h, htarget, writeJcs_string_isSome]

/-! ## Schemas and payloads -/

/-- The payload bytes are canonical for the type of the kind; an Evaluation has two, by schema. -/
def Platform.FoldsPayload (P : Platform) (k : Kind) (data : Bytes) : Prop :=
  match k with
  | .action => P.decodesCanonically ActionData data = true
  | .result => P.decodesCanonically ResultData data = true
  | .refusal => P.decodesCanonically RefusalData data = true
  | .capability => P.decodesCanonically CapabilityData data = true
  | .approval => P.decodesCanonically ApprovalData data = true
  | .summary => P.decodesCanonically SummaryData data = true
  | .usage => P.decodesCanonically UsageData data = true
  | .plan => P.decodesCanonically PlanData data = true
  | .retraction => P.decodesCanonically RetractionData data = true
  | .response => P.decodesCanonically ResponseData data = true
  | .requirement => P.decodesCanonically RequirementData data = true
  | .selection => P.decodesCanonically SelectionData data = true
  | .request => P.decodesCanonically RequestData data = true
  | .candidate => P.decodesCanonically CandidateData data = true
  | .verdict => P.decodesCanonically VerdictData data = true
  | .evaluation => True

theorem frozen_schema {schema : Hash256} {k : Kind}
    (h : P.frozenKindSchemaMap[schema]? = some k) :
    ∃ name, (name, k) ∈ schemaKinds ∧ P.schemaId name = schema := by
  suffices ∀ (l : List (String × Kind)) (m : IdMap Kind),
      (l.foldl (fun map p => map.insert (P.schemaId p.1) p.2) m)[schema]? = some k →
      m[schema]? = some k ∨ ∃ name, (name, k) ∈ l ∧ P.schemaId name = schema by
    rcases this schemaKinds ∅ h with h | h
    · simp at h
    · exact h
  intro l
  induction l with
  | nil => exact fun m h => .inl h
  | cons p l ih =>
    intro m h
    rcases ih _ h with h | ⟨name, hmem, hname⟩
    · rw [ExtTreeMap.getElem?_insert] at h
      split at h
      · next heq =>
        right
        obtain rfl : p.2 = k := Option.some.inj h
        exact ⟨p.1, List.mem_cons_self, LawfulEqOrd.compare_eq_iff_eq.mp heq⟩
      · exact .inl h
    · exact .inr ⟨name, List.mem_cons_of_mem _ hmem, hname⟩

theorem schemaKinds_names : schemaKinds.map Prod.fst = allSchemas := rfl

theorem payloadTests_names : P.payloadTests.map Prod.fst = allSchemas := rfl

/-- The tests and the kinds list the schemas in one order, and each test is the one its kind is
folded with. -/
theorem payloadTests_match : List.Forall₂
    (fun t p => t.1 = p.1 ∧ ∀ data, t.2 data = true → P.FoldsPayload p.2 data)
    P.payloadTests schemaKinds := by
  repeat first
    | exact .nil
    | refine .cons ⟨rfl, fun _ h => h⟩ ?_
    | refine .cons ⟨rfl, fun _ _ => trivial⟩ ?_

theorem foldsPayload_of_test {t : String × (Bytes → Bool)} (ht : t ∈ P.payloadTests) {k : Kind}
    (hk : (t.1, k) ∈ schemaKinds) {data : Bytes} (hd : t.2 data = true) :
    P.FoldsPayload k data := by
  obtain ⟨i, hi, rfl⟩ := List.mem_iff_getElem.mp ht
  have hmatch := payloadTests_match (P := P)
  have hlen := hmatch.length_eq
  obtain ⟨hname, hfold⟩ := hmatch.get hi (hlen ▸ hi)
  have hnodup : (schemaKinds.map Prod.fst).Nodup := by decide
  have hsame := List.inj_on_of_nodup_map hnodup hk (List.getElem_mem (hlen ▸ hi)) hname
  rw [List.get_eq_getElem, List.get_eq_getElem, ← hsame] at hfold
  exact hfold data hd

theorem baseEvidence_schemaId (hdist : P.SchemasDistinct) {name : String} (h : name ∈ allSchemas) :
    P.baseEvidence (P.schemaId name) = (schemaEvidence.lookup name).getD .assumed := by
  have hfind : P.schemaNameForId (P.schemaId name) = some name := by
    unfold Platform.schemaNameForId
    cases hf : allSchemas.find? (fun n => P.schemaId n = P.schemaId name) with
    | none => simpa using List.find?_eq_none.mp hf name h
    | some n =>
      have hid : P.schemaId n = P.schemaId name := by simpa using List.find?_some hf
      rw [hdist n (List.mem_of_find?_eq_some hf) name h hid]
  rw [Platform.baseEvidence, hfind, Option.bind_some]

/-- What a subject that passes the generic checks has shown. -/
structure PassesGeneric (P : Platform) (rules : VerifierRules) (prior : Prior) (s : State)
    (r : Record) : Prop where
  id : P.computeId r = some r.id
  refs : adjacentAll (fun a b => decide (Ref.lt a b)) r.refs = true
  space : r.space = rules.space
  schema : rules.kindSchemaMap[r.schema]? = some r.kind
  author : Platform.checkAuthorRole rules r = none
  signature : P.checkSignature rules r = none
  targets : ∀ ref ∈ r.refs, Platform.checkRef prior s r ref = none
  replacement : P.checkReplacement prior s r = none
  evidence : r.evidence = P.deriveEvidence r.schema (Platform.refEvidences prior.find s r.refs)
  payload : P.checkPayloadDecode r = none
  kind : P.checkKindSpecific rules prior s r = none

theorem checkSubject_passes {prior : Prior} {s : State} {r : Record}
    (h : P.checkSubject rules prior s r = none) : PassesGeneric P rules prior s r := by
  simp only [Platform.checkSubject, Platform.checkEvidence, orElse_none_iff, rejectIf_eq_none,
    orReject_eq_none, not_not, List.findSome?_eq_none_iff] at h
  obtain ⟨hid, hrefs, hspace, kind, hschema, hkind, hauthor, hsig, htargets, hrep, ⟨hev, -⟩, hpay,
    hspec⟩ := h
  exact ⟨hid, by simpa using hrefs, hspace, by rw [hkind, hschema], hauthor, hsig, htargets, hrep,
    hev, hpay, hspec⟩

/-- A subject that passes is by a registered author, in a role its kind allows. -/
theorem PassesGeneric.registered {prior : Prior} {s : State} {r : Record}
    (h : PassesGeneric P rules prior s r) (hk : r.kind ≠ .verdict) :
    rules.authorRoles[r.author.id]? = some r.author.type ∧
      r.author.type ∈ allowedAuthorTypes r.kind := by
  have hauthor := h.author
  simp only [Platform.checkAuthorRole, orElse_none_iff, rejectIf_eq_none, not_not] at hauthor
  obtain ⟨hallowed, hrole⟩ := hauthor
  refine ⟨?_, hallowed⟩
  cases hreg : rules.authorRoles[r.author.id]? with
  | none =>
    have hreq : requiresRegisteredAuthor r.kind = true := by
      cases hkind : r.kind <;> simp_all [requiresRegisteredAuthor]
    simp [hreg, hreq] at hrole
  | some role =>
    simp only [hreg, rejectIf_eq_none, not_not] at hrole
    rw [hrole]

/-- The schema of a record that passes is one of its kind. -/
theorem PassesGeneric.schema_name (hfrozen : P.Frozen rules) {prior : Prior} {s : State}
    {r : Record} (h : PassesGeneric P rules prior s r) :
    ∃ name, (name, r.kind) ∈ schemaKinds ∧ P.schemaId name = r.schema := by
  have hschema := h.schema
  rw [hfrozen] at hschema
  exact frozen_schema hschema

/-- A record that passes has a payload its kind can be folded with. -/
theorem PassesGeneric.foldsPayload (hfrozen : P.Frozen rules) (hdist : P.SchemasDistinct)
    {prior : Prior} {s : State} {r : Record} (h : PassesGeneric P rules prior s r) :
    P.FoldsPayload r.kind r.data := by
  obtain ⟨name, hname, hid⟩ := h.schema_name hfrozen
  have hpay := h.payload
  simp only [Platform.checkPayloadDecode, orReject_eq_none, rejectIf_eq_none, Bool.not_eq_false]
    at hpay
  obtain ⟨t, ht, hd⟩ := hpay
  have htid : r.schema = P.schemaId t.1 := by simpa using List.find?_some ht
  have htmem := List.mem_of_find?_eq_some ht
  have hnames : t.1 ∈ allSchemas := by
    rw [← payloadTests_names (P := P)]
    exact List.mem_map_of_mem htmem
  have hnames' : name ∈ allSchemas := by
    rw [← schemaKinds_names]
    exact List.mem_map_of_mem hname
  have heq : t.1 = name := hdist _ hnames _ hnames' (by rw [← htid, hid])
  exact foldsPayload_of_test htmem (heq ▸ hname) hd

/-- **The fold of an accepted record never fails.** -/
theorem applyAccepted_total (hfrozen : P.Frozen rules) (hdist : P.SchemasDistinct) {prior : Prior}
    {s : State} {r : Record} (h : P.checkSubject rules prior s r = none) (s' : State) :
    ∃ t, P.applyAccepted s' r = some t := by
  have hpay := (checkSubject_passes h).foldsPayload hfrozen hdist
  unfold Platform.applyAccepted Platform.foldKind
  cases hk : r.kind <;> rw [hk] at hpay
  case request => exact ⟨_, rfl⟩
  case verdict => exact ⟨_, rfl⟩
  case candidate => exact ⟨_, rfl⟩
  case evaluation => exact ⟨_, rfl⟩
  case action =>
    obtain ⟨data, hd, -, hw⟩ := decode_of_decodesCanonically hpay
    obtain ⟨hash, hh⟩ := actionHash_isSome r.author.id hw
    exact ⟨_, by simp [hd, hh]; rfl⟩
  case summary =>
    obtain ⟨data, hd, -⟩ := decode_of_decodesCanonically hpay
    obtain ⟨key, hkey⟩ := summaryKey_isSome (P := P) data
    exact ⟨_, by simp [hd, hkey]; rfl⟩
  case selection =>
    obtain ⟨data, hd, -, hw⟩ := decode_of_decodesCanonically hpay
    obtain ⟨hash, hh⟩ := selectionHash_isSome r.author.id (findReplaceRef r.refs) hw
    exact ⟨_, by simp [hd, hh]; rfl⟩
  all_goals
    obtain ⟨data, hd, -⟩ := decode_of_decodesCanonically hpay
    exact ⟨_, by simp [hd]; rfl⟩

end Bellbook
