import Bellbook.Receipt.EpochV03
import Bellbook.Verify.Binding

/-!
# Backward validity

A receipt of epoch 0.3 is replayed with the schemas of its epoch, but its payloads are read with the
types of the current one. `WithinV03` is what keeps the two apart: no kind, no member and no reason of
a receipt is later than its epoch. Within it the two validators decide alike.

* The decoders of the epoch refuse exactly the later members (`fromValueV03_result`,
  `fromValueV03_candidate`).
* Where every payload of a log is read alike, every check and every fold agrees, and so does the replay
  (`replayLoopV03_eq`). An Evaluation of a later schema is never accepted in the epoch
  (`Replays.accepted_schema`), so a Selection meets none.
-/

namespace Bellbook

open Std

/-! ## Payloads of the epoch -/

/-- The tree gives a value to the field after those named: by its name, or by its position. -/
def givesField (names : List String) (last : String) : Json → Bool
  | .object ms => ms.any fun m => m.1 = last
  | .array items => names.length < items.length
  | _ => false

/-- The fields of a Result in epoch 0.3. -/
def resultFieldsV03 : List String := ["action_id", "status", "output"]

/-- The fields of a Candidate in epoch 0.3. -/
def candidateFieldsV03 : List String := ["source", "basis", "parent", "note"]

namespace Platform

variable (P : Platform)

/-- The payload says nothing that was not defined in epoch 0.3. -/
structure PayloadInV03 (x : Record) : Prop where
  result : ∀ v, P.readJson x.data = some v → (fromValue v : Option ResultData).isSome = true →
    givesField resultFieldsV03 "artifacts" v = false
  candidate : ∀ v, P.readJson x.data = some v → (fromValue v : Option CandidateData).isSome = true →
    givesField candidateFieldsV03 "artifacts" v = false
  verdict : ∀ d, P.decode VerdictData x.data = some d → d.reason.all ReasonCode.inV03 = true
  refusal : ∀ d, P.decode RefusalData x.data = some d → d.reasonCode.all ReasonCode.inV03 = true

/-- The receipt is within the vocabulary of epoch 0.3: it names none but the fifteen kinds, and none
of its payloads is later. -/
structure WithinV03 (r : Receipt) : Prop where
  kinds : r.kindsInV03 = true
  payloads : ∀ x ∈ r.records, P.PayloadInV03 x

/-- The payload is read alike in both epochs. -/
structure ReadsAlike (x : Record) : Prop where
  result : P.decodeV03 ResultData x.data = P.decode ResultData x.data
  candidate : P.decodeV03 CandidateData x.data = P.decode CandidateData x.data
  verdict : P.decodeV03 VerdictData x.data = P.decode VerdictData x.data
  refusal : P.decodeV03 RefusalData x.data = P.decode RefusalData x.data

end Platform

variable {P : Platform} {rules : VerifierRules} {L : List Record} {s : State} {prior : Prior} {r : Record}

theorem zip_append_singleton {α β : Type} {a : α} : ∀ {names : List α} {items : List β},
    items.length ≤ names.length → (names ++ [a]).zip items = names.zip items
  | _, [], _ => by simp
  | [], _ :: _, h => by simp at h
  | n :: names, i :: items, h => by
    have ih := zip_append_singleton (a := a) (show items.length ≤ names.length by simpa using h)
    rw [List.cons_append, List.zip_cons_cons, List.zip_cons_cons, ih]

/-- A strict struct with one more field reads the same trees, but for those that give the field. -/
theorem structFields_append {names : List String} {last : String} (hlast : last ∉ names) (v : Json) :
    structFields true names v =
      if givesField names last v then none else structFields true (names ++ [last]) v := by
  cases v with
  | object ms =>
    by_cases hgiven : ∃ m ∈ ms, m.1 = last
    · have hstrict : ¬∀ m ∈ ms, m.1 ∈ names := by
        obtain ⟨m, hm, rfl⟩ := hgiven
        exact fun hall => hlast (hall m hm)
      have hgives : givesField names last (.object ms) = true := by simpa [givesField] using hgiven
      rw [hgives, if_pos rfl, structFields, if_neg fun h => hstrict (h.1 rfl)]
    · push Not at hgiven
      have hmem : ∀ m ∈ ms, (m.1 ∈ names ++ [last] ↔ m.1 ∈ names) := fun m hm => by
        simp [hgiven m hm]
      have hfilter : (ms.map Prod.fst).filter (· ∈ names ++ [last]) =
          (ms.map Prod.fst).filter (· ∈ names) := by
        refine List.filter_congr fun k hk => ?_
        obtain ⟨m, hm, rfl⟩ := List.mem_map.mp hk
        exact decide_eq_decide.mpr (hmem m hm)
      have hnone : givesField names last (.object ms) = false := by
        simpa [givesField] using hgiven
      simp only [structFields, hnone, hfilter, forall₂_congr hmem, Bool.false_eq_true, if_false]
  | array items =>
    by_cases hlen : items.length ≤ names.length
    · simp [structFields, givesField, hlen, Nat.le_succ_of_le hlen, zip_append_singleton hlen]
    · simp [structFields, givesField, hlen, Nat.lt_of_not_le hlen]
  | _ => rfl

/-- A field that is not given takes its default. -/
theorem defaulted_of_not_given {α : Type} [Deserialize α] {names : List String} {last : String}
    (hlast : last ∉ names) {v : Json} (hgives : givesField names last v = false) {f : Fields}
    (hf : structFields true (names ++ [last]) v = some f) (default : α) :
    f.defaulted last default = some default := by
  have hlookup : f.members.lookup last = none := by
    rw [List.lookup_eq_none_iff]
    intro m hm
    rw [bne_iff_ne]
    cases v with
    | object ms =>
      simp only [structFields, Option.ite_none_right_eq_some, Option.some.injEq] at hf
      obtain ⟨-, rfl⟩ := hf
      simp only [givesField, List.any_eq_false, decide_eq_true_eq] at hgives
      exact fun heq => hgives m hm heq.symm
    | array items =>
      simp only [structFields, Option.ite_none_right_eq_some, Option.some.injEq] at hf
      obtain ⟨-, rfl⟩ := hf
      simp only [givesField, decide_eq_false_iff_not, Nat.not_lt] at hgives
      rw [zip_append_singleton hgives] at hm
      exact fun heq => hlast (heq ▸ (List.of_mem_zip hm).1)
    | _ => cases hf
  rw [Fields.defaulted, hlookup]

/-- A strict decoder without the last field refuses the trees that give the field, and reads the
others as the decoder that has it with a default. -/
theorem bind_structFields_append {α β : Type} [Deserialize β] {names : List String} {last : String}
    (hlast : last ∉ names) (default : β) {short long : Fields → Option α}
    (hread : ∀ f : Fields, f.defaulted last default = some default → short f = long f) (v : Json) :
    (structFields true names v).bind short =
      if givesField names last v then none else (structFields true (names ++ [last]) v).bind long := by
  rw [structFields_append hlast]
  cases hgives : givesField names last v with
  | true => rfl
  | false =>
    rw [if_neg Bool.false_ne_true, if_neg Bool.false_ne_true]
    cases hf : structFields true (names ++ [last]) v with
    | none => rfl
    | some f => exact hread f (defaulted_of_not_given hlast hgives hf default)

theorem fromValueV03_result (v : Json) : (fromValueV03 v : Option ResultData) =
    if givesField resultFieldsV03 "artifacts" v then none else fromValue v := by
  refine bind_structFields_append (by decide) (none : Option (List ArtifactRef)) (fun f hf => ?_) v
  rw [hf]
  rfl

theorem fromValueV03_candidate (v : Json) : (fromValueV03 v : Option CandidateData) =
    if givesField candidateFieldsV03 "artifacts" v then none else fromValue v := by
  refine bind_structFields_append (by decide) (none : Option (List ArtifactRef)) (fun f hf => ?_) v
  rw [hf]
  rfl

/-- A decoder that refuses a field agrees where the field is not given. -/
theorem decodeV03_eq_of_not_given {α : Type} [Deserialize α] [DeserializeV03 α] {names : List String}
    {last : String} (hfrom : ∀ v, (fromValueV03 v : Option α) =
      if givesField names last v then none else fromValue v) {data : Bytes}
    (h : ∀ v, P.readJson data = some v → (fromValue v : Option α).isSome = true →
      givesField names last v = false) : P.decodeV03 α data = P.decode α data := by
  unfold Platform.decodeV03 Platform.decode
  cases hv : P.readJson data with
  | none => rfl
  | some v =>
    rw [Option.bind_some, Option.bind_some, hfrom]
    cases hd : (fromValue v : Option α) with
    | none => exact ite_self none
    | some d => rw [h v hv (by rw [hd]; rfl), if_neg Bool.false_ne_true]

theorem decodeV03_result {x : Record} (h : P.PayloadInV03 x) :
    P.decodeV03 ResultData x.data = P.decode ResultData x.data :=
  decodeV03_eq_of_not_given fromValueV03_result h.result

theorem decodeV03_candidate {x : Record} (h : P.PayloadInV03 x) :
    P.decodeV03 CandidateData x.data = P.decode CandidateData x.data :=
  decodeV03_eq_of_not_given fromValueV03_candidate h.candidate

/-- A decoder that only filters what was read agrees where nothing is filtered out. -/
theorem decodeV03_filter {α : Type} [Deserialize α] [DeserializeV03 α] {p : α → Bool}
    (hp : ∀ v, (fromValueV03 v : Option α) = (fromValue v).filter p) {data : Bytes}
    (h : ∀ d, P.decode α data = some d → p d = true) : P.decodeV03 α data = P.decode α data := by
  unfold Platform.decodeV03 Platform.decode at *
  cases hv : P.readJson data with
  | none => rfl
  | some v =>
    rw [hv, Option.bind_some] at h
    rw [Option.bind_some, Option.bind_some, hp]
    cases hd : (fromValue v : Option α) with
    | none => rfl
    | some d => rw [Option.filter_some, if_pos (h d hd)]

/-- **Payloads of the epoch are read alike.** -/
theorem Platform.PayloadInV03.readsAlike {x : Record} (h : P.PayloadInV03 x) : P.ReadsAlike x where
  result := decodeV03_result h
  candidate := decodeV03_candidate h
  verdict := decodeV03_filter (fun _ => rfl) h.verdict
  refusal := decodeV03_filter (fun _ => rfl) h.refusal

/-- What is read alike is canonical alike. -/
theorem decodesCanonicallyV03_eq {α : Type} [Serialize α] [Deserialize α] [DeserializeV03 α]
    {data : Bytes} (h : P.decodeV03 α data = P.decode α data) :
    P.decodesCanonicallyV03 α data = P.decodesCanonically α data := by
  rw [Platform.decodesCanonicallyV03, h]
  rfl

/-! ## Checks -/

theorem checkVerdictRecordV03_eq (h : P.ReadsAlike r) :
    P.checkVerdictRecordV03 rules prior r = P.checkVerdictRecord rules prior r := by
  rw [Platform.checkVerdictRecordV03, decodesCanonicallyV03_eq h.verdict]
  rfl

/-- A Result of the epoch has no artifacts. -/
theorem artifacts_of_decodeV03 {data : Bytes} {d : ResultData}
    (h : P.decodeV03 ResultData data = some d) : d.artifacts = none := by
  obtain ⟨v, -, hv⟩ := Option.bind_eq_some_iff.mp h
  simp only [fromValueV03, Option.bind_eq_bind, Option.bind_eq_some_iff, Option.pure_def,
    Option.some.injEq] at hv
  obtain ⟨f, -, a, -, b, -, c, -, rfl⟩ := hv
  rfl

theorem candidate_artifacts_of_decodeV03 {data : Bytes} {d : CandidateData}
    (h : P.decodeV03 CandidateData data = some d) : d.artifacts = none := by
  obtain ⟨v, -, hv⟩ := Option.bind_eq_some_iff.mp h
  simp only [fromValueV03, Option.bind_eq_bind, Option.bind_eq_some_iff, Option.pure_def,
    Option.some.injEq] at hv
  obtain ⟨f, -, a, -, b, -, c, -, e, -, rfl⟩ := hv
  rfl

theorem checkResultV03_eq (h : P.ReadsAlike r) :
    P.checkResultV03 rules prior s r = P.checkResult rules prior s r := by
  unfold Platform.checkResultV03 Platform.checkResult
  refine orReject_congr h.result fun data hd => ?_
  rw [artifacts_of_decodeV03 hd]
  rfl

theorem checkRefusalV03_eq (h : P.ReadsAlike r) :
    P.checkRefusalV03 prior s r = P.checkRefusal prior s r := by
  rw [Platform.checkRefusalV03, h.refusal]
  rfl

theorem checkCandidateV03_eq (h : P.ReadsAlike r) :
    P.checkCandidateV03 rules prior s r = P.checkCandidate rules prior s r := by
  unfold Platform.checkCandidateV03 Platform.checkCandidate
  refine orReject_congr h.candidate fun data hd => ?_
  rw [candidate_artifacts_of_decodeV03 hd]
  rfl

section Prior

variable (hprior : ∀ id t, prior.find id = some t → P.ReadsAlike t)
include hprior

theorem checkTaskResultV03_eq (requestId : RecordId) (task : PlanTask) :
    P.checkTaskResultV03 prior s r requestId task = P.checkTaskResult prior s r requestId task := by
  unfold Platform.checkTaskResultV03 Platform.checkTaskResult
  cases task.resultRecordId with
  | none => rfl
  | some id =>
    refine orElse_congr rfl fun _ => orReject_congr rfl fun result hfind => ?_
    rw [(hprior id result hfind).result]

theorem checkPlanV03_eq : P.checkPlanV03 prior s r = P.checkPlan prior s r := by
  unfold Platform.checkPlanV03 Platform.checkPlan
  have htask : ∀ requestId, P.checkTaskResultV03 prior s r requestId =
      P.checkTaskResult prior s r requestId :=
    fun requestId => funext (checkTaskResultV03_eq hprior requestId)
  simp only [htask]

theorem checkOutcomeV03_eq (data : SelectionData) (n : Nat) :
    P.checkOutcomeV03 rules prior data n = P.checkOutcome rules prior data n := by
  have hwinner : P.checkWinnerBindingV03 prior = P.checkWinnerBinding prior := by
    funext winner
    unfold Platform.checkWinnerBindingV03 Platform.checkWinnerBinding
    refine orReject_congr rfl fun t hfind => ?_
    rw [(hprior winner t hfind).candidate]
  rw [Platform.checkOutcomeV03, hwinner]
  rfl

end Prior

/-! ## Schemas -/

/-- A schema of the epoch is none of the later ones. -/
theorem schema_ne_later (hdist : P.SchemasDistinct) {schema : Hash256}
    (h : schema ∈ schemasV03.map P.schemaId) {name : String} (hname : name ∈ allSchemas)
    (hlater : name ∉ schemasV03) : schema ≠ P.schemaId name := by
  obtain ⟨known, hknown, rfl⟩ := List.mem_map.mp h
  have hsub : schemasV03 ⊆ allSchemas := by decide
  intro heq
  rw [hdist known (hsub hknown) name hname heq] at hknown
  exact hlater hknown

theorem not_extended (hdist : P.SchemasDistinct) {schema : Hash256}
    (h : schema ∈ schemasV03.map P.schemaId) :
    ¬(schema = P.schemaId schemaEvaluationV2 ∨ schema = P.schemaId schemaEvaluationAttested) := by
  rintro (heq | heq)
  · exact schema_ne_later hdist h (by decide) (by decide) heq
  · exact schema_ne_later hdist h (by decide) (by decide) heq

theorem checkEvaluationV03_eq (hdist : P.SchemasDistinct)
    (h : r.schema ∈ schemasV03.map P.schemaId) :
    P.checkEvaluationV03 prior s r = P.checkEvaluation rules prior s r := by
  rw [Platform.checkEvaluationV03, Platform.checkEvaluation, if_neg (not_extended hdist h)]

theorem evaluationSummaryV03_eq (hdist : P.SchemasDistinct) {schema : Hash256}
    (h : schema ∈ schemasV03.map P.schemaId) (data : Bytes) :
    P.evaluationSummaryV03 schema data = P.evaluationSummary schema data := by
  unfold Platform.evaluationSummaryV03
  split
  · rfl
  · next hother => rw [Platform.evaluationSummary, if_neg hother, if_neg (not_extended hdist h)]

theorem checkSelectionV03_eq (hdist : P.SchemasDistinct)
    (hprior : ∀ id t, prior.find id = some t → P.ReadsAlike t)
    (hused : ∀ t ∈ Platform.usedEvaluations prior s r, t.schema ∈ schemasV03.map P.schemaId) :
    P.checkSelectionV03 rules prior s r = P.checkSelection rules prior s r := by
  unfold Platform.checkSelectionV03 Platform.checkSelection
  refine orReject_congr rfl fun data _ => orElse_congr rfl fun _ => orElse_congr rfl fun _ => ?_
  refine orElse_congr rfl fun _ => orElse_congr (findSome?_congr fun t ht => ?_) fun _ => ?_
  · rw [evaluationSummaryV03_eq hdist (hused t ht)]
  · rw [checkOutcomeV03_eq hprior]
    all_goals rfl

/-- The first test of a name is the same in two tables, where it is in the shorter one. -/
theorem orReject_find_congr {l l' later : List (String × (Bytes → Bool))} {data : Bytes}
    (h : List.Forall₂ (fun t t' => t.1 = t'.1 ∧ t.2 data = t'.2 data) l l') {p : String → Bool}
    (hfound : ∃ t ∈ l, p t.1 = true) :
    (orReject (l.find? fun t => p t.1) .unknownSchema fun t => rejectIf (t.2 data = false) .invalidPayload) =
      orReject ((l' ++ later).find? fun t => p t.1) .unknownSchema
        fun t => rejectIf (t.2 data = false) .invalidPayload := by
  induction h with
  | nil => simp at hfound
  | @cons t t' l l' ht _ ih =>
    rw [List.cons_append, List.find?_cons, List.find?_cons, ← ht.1]
    cases hp : p t.1 with
    | true =>
      show rejectIf (t.2 data = false) _ = rejectIf (t'.2 data = false) _
      rw [ht.2]
    | false =>
      obtain ⟨u, hu, hpu⟩ := hfound
      rcases List.mem_cons.mp hu with rfl | hu
      · rw [hp] at hpu
        cases hpu
      · exact ih ⟨u, hu, hpu⟩

/-- The tests of the epoch are the first of the current ones, on payloads that are read alike. -/
theorem payloadTestsV03_match (h : P.ReadsAlike r) :
    List.Forall₂ (fun t t' => t.1 = t'.1 ∧ t.2 r.data = t'.2 r.data) P.payloadTestsV03
      (P.payloadTests.take 17) := by
  have hresult := decodesCanonicallyV03_eq h.result
  have hcandidate := decodesCanonicallyV03_eq h.candidate
  have hverdict := decodesCanonicallyV03_eq h.verdict
  have hrefusal := decodesCanonicallyV03_eq h.refusal
  simp only [Platform.payloadTestsV03, Platform.payloadTests, List.take, List.forall₂_cons,
    List.forall₂_nil_left_iff, hresult, hcandidate, hverdict, hrefusal, and_self]

theorem checkPayloadDecodeV03_eq (h : P.ReadsAlike r) (hschema : r.schema ∈ schemasV03.map P.schemaId) :
    P.checkPayloadDecodeV03 r = P.checkPayloadDecode r := by
  have hnames : P.payloadTestsV03.map Prod.fst = schemasV03 := rfl
  obtain ⟨name, hname, hid⟩ := List.mem_map.mp hschema
  rw [← hnames] at hname
  obtain ⟨t, ht, rfl⟩ := List.mem_map.mp hname
  unfold Platform.checkPayloadDecodeV03 Platform.checkPayloadDecode
  rw [← List.take_append_drop 17 P.payloadTests]
  exact orReject_find_congr (p := fun name => r.schema = P.schemaId name) (payloadTestsV03_match h)
    ⟨t, ht, decide_eq_true hid.symm⟩

theorem checkKindSpecificV03_eq (hdist : P.SchemasDistinct) (h : P.ReadsAlike r)
    (hkind : r.kind ≠ .requirement) (hschema : r.schema ∈ schemasV03.map P.schemaId)
    (hprior : ∀ id t, prior.find id = some t → P.ReadsAlike t)
    (hused : r.kind = .selection →
      ∀ t ∈ Platform.usedEvaluations prior s r, t.schema ∈ schemasV03.map P.schemaId) :
    P.checkKindSpecificV03 rules prior s r = P.checkKindSpecific rules prior s r := by
  unfold Platform.checkKindSpecificV03 Platform.checkKindSpecific
  cases hk : r.kind with
  | result => exact checkResultV03_eq h
  | refusal => exact checkRefusalV03_eq h
  | plan => exact checkPlanV03_eq hprior
  | candidate => exact checkCandidateV03_eq h
  | evaluation => exact checkEvaluationV03_eq hdist hschema
  | selection => exact checkSelectionV03_eq hdist hprior (hused hk)
  | requirement => exact absurd hk hkind
  | _ => rfl

/-- **A subject is checked alike** under the rules of the epoch. -/
theorem checkSubjectV03_eq (hdist : P.SchemasDistinct) (h : P.ReadsAlike r)
    (hkind : r.kind ≠ .requirement) (hprior : ∀ id t, prior.find id = some t → P.ReadsAlike t)
    (hused : r.kind = .selection →
      ∀ t ∈ Platform.usedEvaluations prior s r, t.schema ∈ schemasV03.map P.schemaId) :
    P.checkSubjectV03 (P.rulesForEpoch rules schemasV03) prior s r =
      P.checkSubject (P.rulesForEpoch rules schemasV03) prior s r := by
  unfold Platform.checkSubjectV03 Platform.checkSubject
  refine orElse_congr rfl fun _ => orElse_congr rfl fun _ => orElse_congr rfl fun _ => ?_
  refine orReject_congr rfl fun kind hlookup => ?_
  have hschema : r.schema ∈ schemasV03.map P.schemaId := by
    by_contra hforeign
    rw [getElem?_rulesForEpoch, if_neg hforeign] at hlookup
    cases hlookup
  rw [checkPayloadDecodeV03_eq h hschema, checkKindSpecificV03_eq hdist h hkind hschema hprior hused]

/-! ## The replay -/

theorem applyRecordV03_eq (h : P.ReadsAlike r) (hkind : r.kind ≠ .requirement) (d : VerdictData) :
    P.applyRecordV03 s r d = P.applyRecord s r d := by
  unfold Platform.applyRecordV03 Platform.applyRecord Platform.applyAccepted
  cases d.result with
  | reject => rfl
  | accept =>
    show P.foldKindV03 _ r = P.foldKind _ r
    unfold Platform.foldKindV03
    split
    · next hk => rw [Platform.foldKind, hk, h.result]
    · next hk => rw [Platform.foldKind, hk, h.refusal]
    · next hk => exact absurd hk hkind
    · rfl

/-- What a run has accepted has a schema that the rules map. -/
theorem Replays.accepted_schema (h : Replays P rules L s) {x : Record} (hx : x ∈ L)
    (hk : x.kind ≠ .verdict) (hacc : x.id ∈ s.acceptedRecords) :
    ∃ kind, rules.kindSchemaMap[x.schema]? = some kind := by
  induction h with
  | nil => cases hx
  | @snoc L s s' r v hrun hstep ih =>
    have hold : x ∈ L → x.id ∈ s.acceptedRecords → ∃ kind, rules.kindSchemaMap[x.schema]? = some kind :=
      fun hx hacc => ih hx hacc
    -- no earlier record has the id of the subject
    have hnew : r.id ∉ s.acceptedRecords := by
      intro hmem
      obtain ⟨a, ha, hid⟩ := hrun.mem_acceptedRecords.mp hmem
      obtain ⟨haL, hak⟩ := hrun.mem_of_mem_accepted ha
      exact hrun.fresh hstep haL hak hid
    have hcases : x ∈ L ∨ x = r := by
      rcases List.mem_append.mp hx with hx | hx
      · exact .inl hx
      · rcases List.mem_cons.mp hx with rfl | hx
        · exact .inr rfl
        · rw [List.mem_singleton.mp hx] at hk
          exact absurd hstep.verdict hk
    rcases hrun.step_cases hstep with ⟨-, -, rfl⟩ | ⟨-, hc, t, hf, rfl⟩
    · rcases hcases with hx | rfl
      · exact hold hx hacc
      · exact absurd hacc hnew
    · rcases hcases with hx | rfl
      · have hne := hrun.fresh hstep hx hk
        change x.id ∈ t.acceptedRecords at hacc
        rw [hf.acceptedRecords, State.accept, Worklist.mem_insert_iff] at hacc
        exact hold hx (hacc.resolve_left hne)
      · rw [checkRecord_subject hk] at hc
        exact ⟨_, (checkSubject_passes hc).schema⟩

section Replay

variable (hdist : P.SchemasDistinct) (hrun : Replays P (P.rulesForEpoch rules schemasV03) L s)
include hrun

/-- The Evaluations a Selection uses are of the epoch. -/
theorem used_schema (hk : r.kind = .selection) {t : Record}
    (ht : t ∈ Platform.usedEvaluations (priorView (L ++ [r])) s r) :
    t.schema ∈ schemasV03.map P.schemaId := by
  simp only [Platform.usedEvaluations, List.mem_filter, List.mem_filterMap, Bool.and_eq_true,
    decide_eq_true_eq] at ht
  obtain ⟨⟨id, -, hfind⟩, hkind, hacc⟩ := ht
  have hmem : t ∈ L := by
    rcases List.mem_append.mp (find_mem hfind).1 with hmem | hmem
    · exact hmem
    · rw [List.mem_singleton.mp hmem, hk] at hkind
      cases hkind
  obtain ⟨kind, hmap⟩ := hrun.accepted_schema hmem (by rw [hkind]; decide) hacc
  by_contra hforeign
  rw [getElem?_rulesForEpoch, if_neg hforeign] at hmap
  cases hmap

include hdist

/-- **One round is replayed alike.** -/
theorem replayPairV03_eq {v : Record} {rest : List Record}
    (hread : ∀ x ∈ L ++ r :: v :: rest, P.ReadsAlike x ∧ x.kind ≠ .requirement)
    (hk : r.kind ≠ .verdict) (c : Nat) :
    P.replayPairV03 (P.rulesForEpoch rules schemasV03) (L ++ r :: v :: rest) L.length
        ⟨s, PriorIndex.of L, c⟩ r v =
      P.replayPair (P.rulesForEpoch rules schemasV03) (L ++ r :: v :: rest) L.length
        ⟨s, PriorIndex.of L, c⟩ r v := by
  have hindex : (PriorIndex.of L).insert L.length r = PriorIndex.of (L ++ [r]) :=
    (PriorIndex.of_concat L r).symm
  have hview : (PriorIndex.of (L ++ [r])).view (L ++ r :: v :: rest) = priorView (L ++ [r]) := by
    rw [show L ++ r :: v :: rest = (L ++ [r]) ++ (v :: rest) by simp, PriorIndex.view_of]
  obtain ⟨hr, hkr⟩ := hread r (by simp)
  obtain ⟨hv, -⟩ := hread v (by simp)
  have hprior : ∀ id t, (priorView (L ++ [r])).find id = some t → P.ReadsAlike t := by
    intro id t hfind
    refine (hread t ?_).1
    rcases List.mem_append.mp (find_mem hfind).1 with hmem | hmem
    · exact List.mem_append_left _ hmem
    · rw [List.mem_singleton.mp hmem]
      simp
  unfold Platform.replayPairV03 Platform.replayPair
  simp only [hindex, hview, checkVerdictRecordV03_eq hv, checkRecord_subject hk, hv.verdict,
    applyRecordV03_eq hr hkr,
    checkSubjectV03_eq hdist hr hkr hprior fun hsel t => used_schema hrun hsel]
  all_goals rfl

/-- **The loop agrees**, after any run of the epoch. -/
theorem replayLoopV03_eq {rest : List Record}
    (hread : ∀ x ∈ L ++ rest, P.ReadsAlike x ∧ x.kind ≠ .requirement) (c : Nat) :
    P.replayLoopV03 (P.rulesForEpoch rules schemasV03) (L ++ rest) L.length rest
        ⟨s, PriorIndex.of L, c⟩ =
      P.replayLoop (P.rulesForEpoch rules schemasV03) (L ++ rest) L.length rest
        ⟨s, PriorIndex.of L, c⟩ := by
  -- two records a round
  induction hn : rest.length using Nat.strong_induction_on generalizing L s c rest with
  | _ n ih =>
  subst hn
  cases rest with
  | nil => rfl
  | cons r rest =>
    rw [Platform.replayLoopV03.eq_def, Platform.replayLoop.eq_def]
    by_cases hk : r.kind = .verdict
    · -- a verdict that follows no subject is refused by the same check
      obtain ⟨reason, hreason⟩ := hrun.verdict_refused r
      have hr := (hread r (by simp)).1
      simp only [hk, if_true, Platform.replayLoneV03, Platform.replayLone, PriorIndex.view_of,
        checkVerdictRecordV03_eq hr, hreason]
    · cases rest with
      | nil => simp only [hk, if_false]
      | cons v rest =>
        simp only [hk, if_false]
        rw [replayPairV03_eq hdist hrun hread hk]
        cases hp : P.replayPair (P.rulesForEpoch rules schemasV03) (L ++ r :: v :: rest) L.length
            ⟨s, PriorIndex.of L, c⟩ r v with
        | error e => rfl
        | ok st =>
          obtain ⟨hstep, hi, hc⟩ := (replayPair_eq_ok hk).mp hp
          obtain ⟨t, index, c'⟩ := st
          simp only at hstep hi hc
          subst hi hc
          have hassoc : L ++ r :: v :: rest = (L ++ [r, v]) ++ rest := by simp
          have hlen : L.length + 2 = (L ++ [r, v]).length := by simp
          have hrest := ih rest.length (by simp only [List.length_cons]; omega) (hrun.snoc hstep)
            (hassoc ▸ hread) (c + 2) rfl
          simp only [hassoc, hlen]
          exact hrest

end Replay

/-- **The replay agrees** on a log whose payloads are read alike. -/
theorem replayLogV03_eq (hdist : P.SchemasDistinct)
    (hread : ∀ x ∈ L, P.ReadsAlike x ∧ x.kind ≠ .requirement) :
    P.replayLogV03 (P.rulesForEpoch rules schemasV03) L =
      P.replayLog (P.rulesForEpoch rules schemasV03) L none := by
  have hloop : P.replayLoopV03 (P.rulesForEpoch rules schemasV03) L 0 L ⟨State.empty, {}, 0⟩ =
      P.replayLoop (P.rulesForEpoch rules schemasV03) L 0 L ⟨State.empty, {}, 0⟩ :=
    replayLoopV03_eq hdist Replays.nil hread 0
  unfold Platform.replayLogV03
  show _ = P.replayFrom _ L 0 State.empty {}
  rw [Platform.replayFrom, List.drop_zero, hloop]

/-! ## Decisions -/

/-- The decision of the report on a replayed log. -/
theorem decision_reportOf (receipt : Receipt) (hash : Hash256) :
    (P.reportOf receipt hash (P.verifyLog rules L none)).decision =
      Platform.decisionV03 (P.replayLog rules L none) := by
  unfold Platform.verifyLog
  cases P.replayLog rules L none with
  | error rejection => rfl
  | ok st => rfl

theorem kinds_of_kindsInV03 {receipt : Receipt} (h : receipt.kindsInV03 = true) {x : Record}
    (hx : x ∈ receipt.records) : x.kind ≠ .requirement := by
  simp only [Receipt.kindsInV03, Bool.and_eq_true, List.all_eq_true, decide_eq_true_eq] at h
  exact h.1.1.1 x hx

/-- The sample rules without the kind that is later than the epoch. -/
def rulesV03 : VerifierRules :=
  { sampleRules with kindSchemaMap := sampleRules.kindSchemaMap.filter fun _ kind => kind ≠ .requirement }

/-- The first pair of the sample log, as a receipt of epoch 0.3. -/
def sampleReceiptV03 : Receipt := ⟨"0.3", [], rulesV03, sampleRound⟩

theorem payloadInV03_of_decode {x : Record} (hresult : P.decode ResultData x.data = none)
    (hcandidate : P.decode CandidateData x.data = none)
    (hverdict : ∀ d, P.decode VerdictData x.data = some d → d.reason.all ReasonCode.inV03 = true)
    (hrefusal : P.decode RefusalData x.data = none) : P.PayloadInV03 x where
  result v hv hsome := by
    rw [Platform.decode, hv, Option.bind_some] at hresult
    rw [hresult] at hsome
    cases hsome
  candidate v hv hsome := by
    rw [Platform.decode, hv, Option.bind_some] at hcandidate
    rw [hcandidate] at hsome
    cases hsome
  verdict := hverdict
  refusal d hd := by
    rw [hrefusal] at hd
    cases hd

theorem sampleReceiptV03_within : reference.WithinV03 sampleReceiptV03 where
  kinds := by decide +kernel
  payloads x hx := by
    rcases List.mem_cons.mp hx with rfl | hx
    · refine payloadInV03_of_decode (by decide +kernel) (by decide +kernel) (fun d hd => ?_)
        (by decide +kernel)
      rw [show reference.decode VerdictData sampleRequest.data = none by decide +kernel] at hd
      cases hd
    · rw [List.mem_singleton.mp hx]
      refine payloadInV03_of_decode (by decide +kernel) (by decide +kernel) (fun d hd => ?_)
        (by decide +kernel)
      rw [show reference.decode VerdictData (acceptance _ sampleRequest).data = some ⟨.accept, none⟩ by
        decide +kernel] at hd
      cases hd
      rfl

/-- No records, and rules that ask for signatures on a kind that is later than the epoch. -/
def laterReceiptV03 : Receipt :=
  ⟨"0.3", [], { rulesV03 with signatureRequiredKinds := (∅ : ExtTreeSet Kind).insert .requirement }, []⟩

end Bellbook
