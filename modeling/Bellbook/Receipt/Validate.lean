import Bellbook.Receipt.Profiles
import Bellbook.Verify.Specification

/-!
# Validation of receipts (`receipt.rs`)

`validateWithLimits` reads a receipt, checks its structure, and replays its log under the rules of the
epoch it declares.

* A log that was accepted under the embedded rules replays alike under the rules of the epoch, but for
  subjects whose schema the rules map and the epoch does not know: the replay rejects them with
  `UnknownSchema`, where the stored verdict may have another reason (`Platform.EpochReasons`).
* The validation of an exported log agrees with `verify_log` exactly when every such reason is the epoch's.
-/

namespace Bellbook

open Std

namespace Platform

variable (P : Platform)

/-! ## Validation -/

/-- The status of a replayed log. -/
def statusOf (verdict : LogVerdict) : ValidationStatus :=
  match verdict.result with
  | .reject => .invalid
  | .accept =>
    if verdict.retractedRecords.isEmpty && verdict.taintedRecords.isEmpty then .clean else .tainted

/-- The report on a replayed log, before its profiles. -/
def reportOf (r : Receipt) (rulesHash : Hash256) (verdict : LogVerdict) : Report where
  status := statusOf verdict
  reason := verdict.reason
  problem := none
  specVersion := r.specVersion
  recordCount := r.records.length
  checkedRecords := verdict.checkedRecords
  lastTime := verdict.lastTime
  headHash := P.sha256ConcatIds (r.records.map Record.id)
  rulesHash := rulesHash
  retractedRecords := verdict.retractedRecords
  taintedRecords := verdict.taintedRecords
  standing := verdict.standing
  profiles := []

/-- Validation of a receipt that was read, within the limits. -/
def validateReceipt (r : Receipt) : Report :=
  match schemasForEpoch r.specVersion with
  | none => .structuralFailure (.unsupportedVersion r.specVersion) r.specVersion
  | some schemas =>
    match checkDeclarations r with
    | some problem => .structuralFailure problem r.specVersion
    | none =>
      match P.sha256Canonical r.rules with
      | none => .structuralFailure .rulesDoNotCanonicalize r.specVersion
      | some rulesHash =>
        -- always from genesis: nothing in a receipt establishes trust in a checkpoint
        let report := P.reportOf r rulesHash
          (P.verifyLog (P.rulesForEpoch r.rules schemas) r.records none)
        { report with profiles := P.evaluateProfiles r report [] }

/-- `validate_with_limits`. -/
def validateWithLimits (limits : ValidationLimits) (bytes : Bytes) : Report :=
  if limits.maxBytes < bytes.length then
    .structuralFailure (.sizeLimit bytes.length limits.maxBytes) ""
  else match P.fromBytes bytes with
    | none => .structuralFailure .unparseable ""
    | some r =>
      match limits.check r with
      | some problem => .structuralFailure problem r.specVersion
      | none => P.validateReceipt r

/-- `validate`. -/
def validate (bytes : Bytes) : Report := P.validateWithLimits {} bytes

/-- `validate_with_profiles`. -/
def validateWithProfiles (limits : ValidationLimits) (bytes : Bytes) (profiles : List String) : Report :=
  let report := P.validateWithLimits limits bytes
  if profiles = [] ∨ report.problem.isSome then report
  else match P.fromBytes bytes with
    | none => report
    | some r => { report with profiles := P.evaluateProfiles r report profiles }

/-! ## Agreement -/

/-- `serde_json` reads the canonical text of a receipt back as the tree it was written from. -/
def ReadsReceipts : Prop :=
  ∀ (r : Receipt) (bytes : Bytes), P.toBytes r = some bytes → P.readJson bytes = some (toValue r).canon

/-- The report agrees with what `verify_log` says about the log under the exported rules. -/
structure Agrees (rules : VerifierRules) (records : List Record) (report : Report) : Prop where
  status : report.status =
    if (P.verifyLog rules records none).retractedRecords = ∅ ∧
      (P.verifyLog rules records none).taintedRecords = ∅ then .clean else .tainted
  retracted : report.retractedRecords = (P.verifyLog rules records none).retractedRecords
  tainted : report.taintedRecords = (P.verifyLog rules records none).taintedRecords
  standing : report.standing = (P.verifyLog rules records none).standing
  checked : report.checkedRecords = (P.verifyLog rules records none).checkedRecords
  lastTime : report.lastTime = (P.verifyLog rules records none).lastTime
  problem : report.problem = none
  reason : report.reason = none
  rulesHash : P.sha256Canonical rules = some report.rulesHash
  headHash : report.headHash = P.sha256ConcatIds (records.map Record.id)

/-- A schema that the rules map and the epoch does not know. -/
def Foreign (rules : VerifierRules) (schemas : List String) (schema : Hash256) : Prop :=
  schema ∈ rules.kindSchemaMap ∧ schema ∉ schemas.map P.schemaId

/-- The checks before the schema is looked up pass: the refs are strictly ordered, and the record is
in the space of the rules. -/
def ReachesSchema (rules : VerifierRules) (r : Record) : Prop :=
  adjacentAll (fun a b => decide (Ref.lt a b)) r.refs = true ∧ r.space = rules.space

/-- Every subject with a foreign schema that was looked up was rejected with `UnknownSchema`. -/
def EpochReasons (rules : VerifierRules) (schemas : List String) (records : List Record) : Prop :=
  ∀ (k : Nat) (h : 2 * k + 1 < records.length),
    P.Foreign rules schemas (getElem records (2 * k) (two_mul_lt h)).schema →
    ReachesSchema rules (getElem records (2 * k) (two_mul_lt h)) →
    P.decode VerdictData records[2 * k + 1].data = some ⟨.reject, some .unknownSchema⟩

end Platform

variable {P : Platform} {rules : VerifierRules} {schemas : List String} {L : List Record} {s t : State}
  {r v : Record} {prior : Prior}

/-! ## The rules of an epoch -/

theorem getElem?_rulesForEpoch (schema : Hash256) :
    (P.rulesForEpoch rules schemas).kindSchemaMap[schema]? =
      if schema ∈ schemas.map P.schemaId then rules.kindSchemaMap[schema]? else none := by
  show (rules.kindSchemaMap.filter _)[schema]? = _
  rw [ExtTreeMap.getElem?_filter']
  by_cases h : schema ∈ schemas.map P.schemaId
  · rw [if_pos h]
    cases rules.kindSchemaMap[schema]? <;> simp [h]
  · rw [if_neg h]
    cases rules.kindSchemaMap[schema]? <;> simp [h]

theorem not_foreign_iff : ¬P.Foreign rules schemas r.schema ↔
    rules.kindSchemaMap[r.schema]? = none ∨ r.schema ∈ schemas.map P.schemaId := by
  rw [Platform.Foreign, not_and_or, not_not, ExtTreeMap.mem_iff_isSome_getElem?, Option.not_isSome_iff_eq_none]

/-- A schema that is not foreign is checked alike. -/
theorem checkSubject_epoch (h : ¬P.Foreign rules schemas r.schema) :
    P.checkSubject (P.rulesForEpoch rules schemas) prior s r = P.checkSubject rules prior s r := by
  have hlookup : (P.rulesForEpoch rules schemas).kindSchemaMap[r.schema]? =
      rules.kindSchemaMap[r.schema]? := by
    rw [getElem?_rulesForEpoch]
    rcases not_foreign_iff.mp h with hnone | hknown
    · rw [hnone, ite_self]
    · rw [if_pos hknown]
  unfold Platform.checkSubject
  rw [hlookup]
  rfl

/-- A record that fails before the lookup fails alike. -/
theorem checkSubject_early (hid : P.computeId r = some r.id) (h : ¬Platform.ReachesSchema rules r) :
    P.checkSubject (P.rulesForEpoch rules schemas) prior s r = P.checkSubject rules prior s r := by
  have hearly (rules' : VerifierRules) (hspace : rules'.space = rules.space) :
      P.checkSubject rules' prior s r = some .invalidPayload := by
    unfold Platform.checkSubject
    rw [hspace]
    rcases not_and_or.mp h with hrefs | hother
    · simp [rejectIf, hid, hrefs]
    · by_cases hrefs : adjacentAll (fun a b => decide (Ref.lt a b)) r.refs = true
      · simp [rejectIf, hid, hrefs, hother]
      · simp [rejectIf, hid, hrefs]
  rw [hearly rules rfl]
  exact hearly _ rfl

/-- A foreign schema that is looked up is unknown to the epoch. -/
theorem checkSubject_foreign (hid : P.computeId r = some r.id)
    (hforeign : P.Foreign rules schemas r.schema) (h : Platform.ReachesSchema rules r) :
    P.checkSubject (P.rulesForEpoch rules schemas) prior s r = some .unknownSchema := by
  have hspace : ¬r.space ≠ (P.rulesForEpoch rules schemas).space := by
    rw [not_not]
    exact h.2
  unfold Platform.checkSubject
  rw [getElem?_rulesForEpoch, if_neg hforeign.2]
  simp [rejectIf, hid, h.1, hspace, orReject]

theorem checkRecord_epoch (hk : r.kind ≠ .verdict) (hid : P.computeId r = some r.id)
    (h : P.Foreign rules schemas r.schema → Platform.ReachesSchema rules r →
      P.checkRecord rules prior s r = some .unknownSchema) :
    P.checkRecord (P.rulesForEpoch rules schemas) prior s r = P.checkRecord rules prior s r := by
  rw [checkRecord_subject hk] at h ⊢
  rw [checkRecord_subject hk]
  by_cases hforeign : P.Foreign rules schemas r.schema
  · by_cases hreach : Platform.ReachesSchema rules r
    · rw [h hforeign hreach, checkSubject_foreign hid hforeign hreach]
    · exact checkSubject_early hid hreach
  · exact checkSubject_epoch hforeign

/-! ## The replay under the rules of an epoch -/

/-- **The replay agrees** where every foreign subject was rejected with `UnknownSchema`. -/
theorem Verified.forEpoch (h : Verified P rules L s) (hreasons : P.EpochReasons rules schemas L) :
    Verified P (P.rulesForEpoch rules schemas) L s := by
  induction h using Verified.rec_snoc with
  | nil => exact Verified.nil
  | @snoc L s r v s' hL hall hstep ih =>
    obtain ⟨t, -, hr, hv, hidr, hidv, -⟩ := Verified.snoc_iff.mp hall
    obtain ⟨m, hm⟩ := hL.run.even
    have hprefix : P.EpochReasons rules schemas L := by
      intro k hk
      have hlt : 2 * k + 1 < (L ++ [r, v]).length := by
        rw [List.length_append]
        omega
      have hpair := hreasons k hlt
      rwa [List.getElem_append_left (by omega), List.getElem_append_left hk] at hpair
    have hcheck : P.checkRecord (P.rulesForEpoch rules schemas) (priorView (L ++ [r])) s r =
        P.checkRecord rules (priorView (L ++ [r])) s r := by
      refine checkRecord_epoch hstep.subject hidr fun hforeign hreach => ?_
      have hlt : 2 * m + 1 < (L ++ [r, v]).length := by
        simp
        omega
      have hpair := hreasons m hlt
      simp only [← hm, getElem_pair_left, getElem_pair_right] at hpair
      have hstored := hpair hforeign hreach
      rw [hstep.judged] at hstored
      exact verdictOf_inj (Option.some.inj hstored)
    refine Verified.snoc_iff.mpr ⟨s, ih hprefix, hr, hv, hidr, hidv, ?_⟩
    exact ⟨hstep.subject, hstep.verdict, hstep.envelope, hstep.cause, by rw [hcheck]; exact hstep.judged,
      by rw [hcheck]; exact hstep.folded⟩

/-- Where the log is accepted under the rules of the epoch, the stored reasons are the epoch's. -/
theorem Verified.epochReasons (h : Verified P (P.rulesForEpoch rules schemas) L s) :
    P.EpochReasons rules schemas L := by
  intro k hk hforeign hreach
  obtain ⟨t, t', ht, hstep, -⟩ := h.pair_at hk
  have hid := h.ids L[2 * k] (List.getElem_mem _)
  have hjudged := hstep.judged
  rw [checkRecord_subject hstep.subject, checkSubject_foreign hid hforeign hreach] at hjudged
  exact hjudged

/-! ## The validation of an export -/

variable {records : List Record} {limits : ValidationLimits} {bytes : Bytes}

/-- The rules of a receipt that was written have a hash. -/
theorem rulesHash_of_toBytes {receipt : Receipt} (h : P.toBytes receipt = some bytes) :
    ∃ hash, P.sha256Canonical receipt.rules = some hash := by
  obtain ⟨text, htext, -⟩ := Option.map_eq_some_iff.mp h
  have hall : (writeJcs P.formatFinite (.object (receiptMembers receipt))).isSome = true :=
    Option.isSome_of_mem htext
  have hrules := (writeJcs_object_isSome _ _).mp hall ("rules", toValue receipt.rules)
    (by simp [receiptMembers])
  obtain ⟨out, hout⟩ := Option.isSome_iff_exists.mp hrules
  exact ⟨_, by rw [Platform.sha256Canonical, Platform.canonicalJson, hout]; rfl⟩

/-- **An export is read back.** -/
theorem fromBytes_toBytes (hread : P.ReadsReceipts) {receipt : Receipt}
    (hbytes : P.toBytes receipt = some bytes) : P.fromBytes bytes = some receipt := by
  rw [Platform.fromBytes, Platform.decode, hread receipt bytes hbytes, Option.bind_some,
    fromValue_canon]

/-- An export is validated as what was exported. -/
theorem validateWithLimits_toBytes (hread : P.ReadsReceipts) {receipt : Receipt}
    (hbytes : P.toBytes receipt = some bytes) (hsize : bytes.length ≤ limits.maxBytes)
    (hlimits : limits.check receipt = none) :
    P.validateWithLimits limits bytes = P.validateReceipt receipt := by
  rw [Platform.validateWithLimits, if_neg (by omega), fromBytes_toBytes hread hbytes]
  simp only [hlimits]

/-- Without declarations, an export is replayed under the rules of the current epoch. -/
theorem validateReceipt_new {hash : Hash256} (hhash : P.sha256Canonical rules = some hash) :
    P.validateReceipt (Receipt.new records rules) =
      P.reportOf (Receipt.new records rules) hash
        (P.verifyLog (P.rulesForEpoch rules allSchemas) records none) := by
  unfold Platform.validateReceipt
  rw [show schemasForEpoch (Receipt.new records rules).specVersion = some allSchemas from rfl,
    show checkDeclarations (Receipt.new records rules) = none from rfl,
    show P.sha256Canonical (Receipt.new records rules).rules = some hash from hhash]
  rfl

theorem isEmpty_and_iff {a b : IdSet} : (a.isEmpty && b.isEmpty) = true ↔ a = ∅ ∧ b = ∅ := by
  rw [Bool.and_eq_true, ExtTreeSet.isEmpty_iff, ExtTreeSet.isEmpty_iff]

/-- A status other than invalid is that of a log that was accepted. -/
theorem accept_of_statusOf {verdict : LogVerdict} (h : Platform.statusOf verdict ≠ .invalid) :
    verdict.result = .accept := by
  unfold Platform.statusOf at h
  cases hresult : verdict.result with
  | accept => rfl
  | reject =>
    rw [hresult] at h
    exact absurd rfl h

theorem Platform.Agrees.status_ne {report : Report} (h : P.Agrees rules records report) :
    report.status ≠ .invalid := by
  rw [h.status]
  split
  · simp
  · simp

/-- An export is invalid where a stored reason is not the epoch's. -/
theorem export_invalid (hread : P.ReadsReceipts)
    (hbytes : P.toBytes (Receipt.new records rules) = some bytes)
    (hsize : bytes.length ≤ limits.maxBytes)
    (hlimits : limits.check (Receipt.new records rules) = none)
    (hreasons : ¬P.EpochReasons rules allSchemas records) :
    (P.validateWithLimits limits bytes).status = .invalid := by
  obtain ⟨hash, hhash⟩ := rulesHash_of_toBytes hbytes
  replace hhash : P.sha256Canonical rules = some hash := hhash
  rw [validateWithLimits_toBytes hread hbytes hsize hlimits, validateReceipt_new hhash]
  by_contra hstatus
  obtain ⟨t, ht⟩ := accepts_iff.mp (accept_of_statusOf hstatus)
  exact hreasons ht.epochReasons

theorem export_validates_iff (hread : P.ReadsReceipts) (hacc : P.Accepts rules records)
    (hbytes : P.toBytes (Receipt.new records rules) = some bytes)
    (hsize : bytes.length ≤ limits.maxBytes)
    (hlimits : limits.check (Receipt.new records rules) = none) :
    P.Agrees rules records (P.validateWithLimits limits bytes) ↔
      P.EpochReasons rules allSchemas records := by
  obtain ⟨s, hv⟩ := accepts_iff.mp hacc
  obtain ⟨hash, hhash⟩ := rulesHash_of_toBytes hbytes
  replace hhash : P.sha256Canonical rules = some hash := hhash
  constructor
  · intro hagrees
    by_contra hreasons
    exact hagrees.status_ne (export_invalid hread hbytes hsize hlimits hreasons)
  · intro hreasons
    rw [validateWithLimits_toBytes hread hbytes hsize hlimits, validateReceipt_new hhash]
    have hlog := hv.verifyLog_eq
    have hepoch := (hv.forEpoch hreasons).verifyLog_eq
    generalize P.verifyLog (P.rulesForEpoch rules allSchemas) records none = epoch at hepoch ⊢
    constructor
    case status =>
      rw [hlog, hepoch]
      by_cases hclean : s.retractedRecords = ∅ ∧ s.taintedRecords = ∅
      · rw [if_pos hclean]
        exact if_pos (isEmpty_and_iff.mpr hclean)
      · rw [if_neg hclean]
        exact if_neg fun h => hclean (isEmpty_and_iff.mp h)
    case rulesHash => exact hhash
    all_goals simp only [Platform.reportOf, Receipt.new, hlog, hepoch]

/-- Rules with the frozen map know no foreign schema. -/
theorem epochReasons_of_frozen (hfrozen : P.Frozen rules) : P.EpochReasons rules allSchemas records := by
  intro k hk hforeign
  obtain ⟨kind, hmap⟩ := Option.isSome_iff_exists.mp
    (ExtTreeMap.mem_iff_isSome_getElem?.mp hforeign.1)
  rw [hfrozen] at hmap
  obtain ⟨name, hname, heq⟩ := frozen_schema hmap
  have hall : name ∈ allSchemas := List.mem_map_of_mem (f := Prod.fst) hname
  have hknown : records[2 * k].schema ∈ allSchemas.map P.schemaId := by
    rw [← heq]
    exact List.mem_map_of_mem hall
  exact absurd hknown hforeign.2

/-! ## The reference platform -/

theorem floatFree_setValue {α : Type} [Ord α] [TransOrd α] [Serialize α] [LawfulSerialize α]
    (s : ExtTreeSet α) : (setValue s).FloatFree := LawfulSerialize.floatFree s.toList

theorem floatFree_idPairs (m : IdMap Kind) : (idPairs m).FloatFree := by
  show FloatFreeItems (List.map toValue (m.toList.map fun p => tuple2 (toValue p.1) (toValue p.2)))
  induction m.toList with
  | nil => trivial
  | cons p l ih =>
    exact ⟨⟨LawfulSerialize.floatFree p.1, LawfulSerialize.floatFree p.2, trivial⟩, ih⟩

theorem floatFree_rules (rules : VerifierRules) : (toValue rules).FloatFree :=
  ⟨LawfulSerialize.floatFree rules.space, floatFree_idPairs _, floatFree_setValue _,
    floatFree_mapObject floatFree_setValue _, floatFree_mapObject LawfulSerialize.floatFree _,
    floatFree_setValue _, floatFree_setValue _, floatFree_mapObject LawfulSerialize.floatFree _,
    LawfulSerialize.floatFree rules.maxContextRecords.toNat, LawfulSerialize.floatFree rules.minBinding,
    trivial, floatFree_setValue _, LawfulSerialize.floatFree rules.maxConsidered.toNat, trivial, trivial,
    trivial⟩

theorem floatFree_record (r : Record) : (toValue r).FloatFree :=
  ⟨LawfulSerialize.floatFree r.id, LawfulSerialize.floatFree r.space, LawfulSerialize.floatFree r.thread,
    LawfulSerialize.floatFree r.time, LawfulSerialize.floatFree r.author,
    LawfulSerialize.floatFree r.kind, LawfulSerialize.floatFree r.schema,
    LawfulSerialize.floatFree r.data, LawfulSerialize.floatFree r.refs,
    LawfulSerialize.floatFree r.evidence, trivial⟩

theorem floatFree_profileRef (p : ProfileRef) : (toValue p).FloatFree :=
  ⟨LawfulSerialize.floatFree p.id, LawfulSerialize.floatFree p.version.toNat,
    LawfulSerialize.floatFree p.hash, trivial⟩

theorem floatFree_list {α : Type} [Serialize α] (h : ∀ a : α, (toValue a).FloatFree) (as : List α) :
    (toValue as).FloatFree := by
  show FloatFreeItems (as.map toValue)
  induction as with
  | nil => trivial
  | cons a as ih => exact ⟨h a, ih⟩

theorem floatFree_receipt (receipt : Receipt) : (toValue receipt).FloatFree := by
  show FloatFreeMembers (receiptMembers receipt)
  rw [floatFreeMembers_iff]
  intro m hm
  simp only [receiptMembers, List.mem_append, List.mem_cons, List.not_mem_nil, or_false] at hm
  rcases hm with (rfl | hprofiles) | rfl | rfl
  · exact LawfulSerialize.floatFree receipt.specVersion
  · cases hlist : receipt.profiles with
    | nil => simp [hlist, skipEmpty] at hprofiles
    | cons p ps =>
      simp only [hlist, skipEmpty, List.mem_cons, List.not_mem_nil, or_false] at hprofiles
      subst hprofiles
      exact floatFree_list floatFree_profileRef (p :: ps)
  · exact floatFree_rules receipt.rules
  · exact floatFree_list floatFree_record receipt.records

theorem reference_readsReceipts : reference.ReadsReceipts := by
  intro receipt bytes h
  obtain ⟨text, htext, rfl⟩ := Option.map_eq_some_iff.mp h
  exact reference_reads (floatFree_receipt receipt) htext

/-! ## Two exports -/

/-- The default limits, but for a bound on the size. -/
def limitsOf (maxBytes : Nat) : ValidationLimits := { maxBytes }

/-- The bounds on what was read do not depend on the size. -/
theorem check_limitsOf (n : Nat) (receipt : Receipt) :
    (limitsOf n).check receipt = (limitsOf 0).check receipt := rfl

/-- The first pair of the sample log, exported and validated. -/
theorem sampleRound_exports : ∃ bytes,
    reference.toBytes (Receipt.new sampleRound sampleRules) = some bytes ∧
      reference.Agrees sampleRules sampleRound
        (reference.validateWithLimits (limitsOf bytes.length) bytes) := by
  have hsome : (reference.toBytes (Receipt.new sampleRound sampleRules)).isSome = true := by
    decide +kernel
  obtain ⟨bytes, hbytes⟩ := Option.isSome_iff_exists.mp hsome
  have hlimits : (limitsOf bytes.length).check (Receipt.new sampleRound sampleRules) = none := by
    rw [check_limitsOf]
    decide +kernel
  refine ⟨bytes, hbytes, (export_validates_iff reference_readsReceipts sampleRound_accepts hbytes
    (Nat.le_refl _) hlimits).mpr ?_⟩
  exact epochReasons_of_frozen sampleRules_frozen

/-- The sample rules with a schema of the host's own, mapped to Requests. -/
def customRules : VerifierRules :=
  { sampleRules with kindSchemaMap := sampleRules.kindSchemaMap.insert 7 .request }

def customSubject : Record :=
  { sampleSubject 0x359c8233648de884d481bd84f92ffbb5b14ae162909b7e71ad9b368cfaa60adc 1 byUser
    .capability schemaCapability (payload sampleCapabilityData) [] with schema := 7 }

/-- A Capability under the host's schema: rejected with `KindSchemaMismatch`. -/
def customLog : List Record :=
  [customSubject,
    { acceptance 0xf76c06aede295763f0b56ad92bb735daa98f3b43360a580845e69b14220a03ba customSubject with
      data := payload (⟨.reject, some .kindSchemaMismatch⟩ : VerdictData) }]

theorem customLog_accepts : reference.Accepts customRules customLog := by decide +kernel

theorem customLog_reasons : ¬reference.EpochReasons customRules allSchemas customLog := by
  intro h
  have hforeign : reference.Foreign customRules allSchemas customSubject.schema := by
    rw [Platform.Foreign, map_schemaId]
    decide +kernel
  have hstored := h 0 (by decide) hforeign ⟨by decide +kernel, by decide +kernel⟩
  have hother : reference.decode VerdictData
      (customLog.get ⟨1, by decide⟩).data = some ⟨.reject, some .kindSchemaMismatch⟩ := by
    decide +kernel
  rw [show customLog.get ⟨1, by decide⟩ = customLog[2 * 0 + 1] from rfl, hstored] at hother
  cases hother

/-- The writer's log is accepted, and the validation of its export is not. -/
theorem customLog_export_disagrees : ∃ bytes,
    reference.Accepts customRules customLog ∧
      reference.toBytes (Receipt.new customLog customRules) = some bytes ∧
      (limitsOf bytes.length).check (Receipt.new customLog customRules) = none ∧
      (reference.validateWithLimits (limitsOf bytes.length) bytes).status = .invalid ∧
      ¬reference.Agrees customRules customLog
        (reference.validateWithLimits (limitsOf bytes.length) bytes) := by
  have hsome : (reference.toBytes (Receipt.new customLog customRules)).isSome = true := by
    decide +kernel
  obtain ⟨bytes, hbytes⟩ := Option.isSome_iff_exists.mp hsome
  have hlimits : (limitsOf bytes.length).check (Receipt.new customLog customRules) = none := by
    rw [check_limitsOf]
    decide +kernel
  have hinvalid := export_invalid reference_readsReceipts hbytes (Nat.le_refl _) hlimits
    customLog_reasons
  exact ⟨bytes, customLog_accepts, hbytes, hlimits, hinvalid, fun h => h.status_ne hinvalid⟩

end Bellbook
