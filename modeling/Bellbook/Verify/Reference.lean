import Bellbook.Lib.Sha256
import Bellbook.Verify.Binding

/-!
# A platform that runs

`reference` fills in what the crate takes from outside by functions that compute: SHA-256, and a
UTF-8 and JSON reader. Doubles and signatures are left out of it, and no log below has any.

* `reference_reads`: it reads canonical text back as the value the text was written from.
* `hashSound_of_nodup`: on a log with computed ids, `HashSound` is that finitely many digests differ
  and that no record mentions its own id.
* `sampleLog`: a Request, a Capability, an Approval of one exact Action, and that Action, all
  accepted.
-/

namespace Bellbook

open Std

/-! ## The platform -/

def reference : Platform where
  sha256 := Sha256.digest
  readJson bytes := (textOfUtf8 bytes).bind (JsonText.readText decimalNumber)
  formatFinite _ := []
  verifyStrict _ _ _ := false
  publicKey secret := secret
  signBytes _ _ := []
  hashOrder _ keys := keys
  sortUnstable _ le as := as.mergeSort le

/-- **The reader inverts the canonical writer**, up to member order. -/
theorem reference_reads {v : Json} {text : List Char} (hf : v.FloatFree)
    (h : writeJcs reference.formatFinite v = some text) :
    reference.readJson (utf8 text) = some v.canon := by
  show (textOfUtf8 (utf8 text)).bind (JsonText.readText decimalNumber) = _
  rw [textOfUtf8_utf8]
  exact readText_writeJcs (fun n _ => decimalNumber_decimal n) hf h

/-- The digests of the frozen schema names. -/
def schemaDigests : List Hash256 :=
  [0x940bda0b5254b14e3f7d79b7114bbde9e830bc477d5d8a8fdb50296bce0fc6aa,
    0x68d72c90cda4b9029e5a5b5ceeed4012d9a44271e7bf982a8047a94eaa6f4710,
    0xb35279073422b282c129a5a042c948aa9de5d3f78ae8fbf610f51bdbea48a369,
    0x41432298ff6fe5dbd5f81f755f049d1c7396d515bca12253a6bc4955b04db1d2,
    0x26dd280715782c8fa4b032907a9c471e8f5fdfbdd670c655d5a4dd22643a4930,
    0xa185395ca4cfb497c02755965c61e21fe53767a99150f1f9f66ea74725b97826,
    0x8838734029ba9ac46cff98ccb329d759a065e1955fdd210bab23af92167c9525,
    0xb3a8e0487283cde91f3edc569103127df48787cbb9238d04830071ef8beaeef1,
    0x846637ce780f6cc74434352da8258ad2debb2bde0fe7f69ee1a7643ba7ecc8ad,
    0xf8e5a537b5f22358a9372803f7e992e13cb7f697af199759a8cc1c7d17a420a1,
    0x10ee0230e906a357f986fdc5744120b5c99a9cec7c5bd94c2c5c39522590c944,
    0x2bce1ec7b5e3dd1d5233a08e7412f2002e6c86d7bcb22def7370f56c761447e8,
    0x26b809f596d7c7e9e68371c24f5efeaa17e635e8dade1f6655a462f2a3a82400,
    0xa7b2e9e5237f757ef677317e9a2188513c273d4bfa1769165823c3c544411cb6,
    0xf207919de5c919d1ab4d738ce5f904c348ad96ebd802a05b7ba1d12c76b4f6e9,
    0x4417b2b2fe90e46c19f42e051cf419b404efcc8aa2c8b9f815287d102a5a94d1,
    0x8056bde5db1bba0a33d08873e60f3de26a751aaa4d895573de2e0701059549f2,
    0x0bd3b19adaa4738d8e5e735ac0274543b9f4032fc512a63067c84a9fc44dec17,
    0xb133ffe56f8ea35ee2e699e343c7d4f82b38e040b4ca6855d177c88f3006dea3,
    0x3c9b9e3abebd4efc5bbff3551359471b086c4cc184a5d513629daebec254b486]

theorem map_schemaId : allSchemas.map reference.schemaId = schemaDigests := by decide +kernel

/-! ## Digests that differ -/

section Nodup

variable {P : Platform} {L : List Record}

theorem collisionFree_of_nodup {strings : List Bytes} (h : (strings.map P.sha256).Nodup) :
    P.CollisionFree strings :=
  fun _ ha _ hb heq => List.inj_on_of_nodup_map h ha hb heq

theorem Platform.CollisionFree.mono {strings strings' : List Bytes} (h : P.CollisionFree strings)
    (hsub : strings' ⊆ strings) : P.CollisionFree strings' :=
  fun a ha b hb => h a (hsub ha) b (hsub hb)

/-- The digests of the canonical id forms are the ids. -/
theorem map_sha256_forms (hids : ∀ r ∈ L, P.computeId r = some r.id) :
    (L.filterMap P.canonicalIdForm).map P.sha256 = L.map Record.id := by
  rw [List.map_filterMap]
  show L.filterMap P.computeId = _
  rw [List.filterMap_congr hids]
  exact congrFun List.filterMap_eq_map' L

/-- Where the ids are the digests of the contents, `HashSound` is about finitely many digests. -/
theorem hashSound_of_nodup (hids : ∀ r ∈ L, P.computeId r = some r.id)
    (hnodup : (allSchemas.map P.schemaId ++ L.map Record.id).Nodup)
    (hself : ∀ r ∈ L, r.id ∉ P.mentionedIds r) : P.HashSound L := by
  refine ⟨collisionFree_of_nodup ?_, fun r hr _ => hself r hr⟩
  rw [Platform.hashedBytes, List.map_append, map_sha256_forms hids, List.map_map]
  exact hnodup

end Nodup

/-! ## Acceptance from a prefix -/

section Extend

variable {P : Platform} {rules : VerifierRules} {L : List Record} {m : Nat}

/-- The records from `m` on pass, replayed from the state of those before. -/
def Platform.restPasses (P : Platform) (rules : VerifierRules) (m : Nat) (L : List Record) : Bool :=
  match P.buildStateUnchecked (L.take m) with
  | none => false
  | some s =>
    timesConsecutive L = true ∧ startsAtOne L = true ∧
      (∀ r ∈ L.drop m, P.computeId r = some r.id) ∧
      (P.replayLoop rules L m (L.drop m) ⟨s, PriorIndex.of (L.take m), 0⟩).isOk = true

/-- A log is accepted where a prefix is and the rest passes after it. -/
theorem Platform.Accepts.extend (h : P.Accepts rules (L.take m)) (hm : m ≤ L.length)
    (hrest : P.restPasses rules m L = true) : P.Accepts rules L := by
  obtain ⟨s, hv⟩ := accepts_iff.mp h
  rw [Platform.restPasses, hv.run.build] at hrest
  simp only [decide_eq_true_eq] at hrest
  obtain ⟨htimes, hstart, hids, hloop⟩ := hrest
  cases hst : P.replayLoop rules L m (L.drop m) ⟨s, PriorIndex.of (L.take m), 0⟩ with
  | error e =>
    rw [hst] at hloop
    cases hloop
  | ok st =>
    have hreplays : P.replayLoop rules (L.take m ++ L.drop m) (L.take m).length (L.drop m)
        ⟨s, PriorIndex.of (L.take m), 0⟩ = .ok st ↔ _ := replayLoop_eq_ok hv.run
    rw [List.take_append_drop, List.length_take_of_le hm] at hreplays
    refine accepts_iff.mpr ⟨st.state, htimes, hstart, fun r hr => ?_, (hreplays.mp hst).1⟩
    rw [← List.take_append_drop m L, List.mem_append] at hr
    rcases hr with hr | hr
    · exact hv.ids r hr
    · exact hids r hr

end Extend

/-- A log with its acceptance. -/
def Platform.AcceptedLog (P : Platform) (rules : VerifierRules) : Type :=
  {L : List Record // P.Accepts rules L}

/-! ## A sample log -/

/-- Rules for one user and one provider. -/
def sampleRules : VerifierRules where
  space := 1
  kindSchemaMap := (schemaDigests.zip (schemaKinds.map Prod.snd)).foldl
    (fun map p => map.insert p.1 p.2) ∅
  authorRoles := ((∅ : ExtTreeMap ActorId AuthorType).insert "user" .user).insert "agent" .provider
  allowedSummaryTypes := allSummaryTypes
  maxContextRecords := 8

theorem sampleRules_frozen : reference.Frozen sampleRules := by
  rw [Platform.Frozen, sampleRules, ← map_schemaId, show allSchemas = schemaKinds.map Prod.fst from rfl, List.map_map,
    List.zip_map', List.foldl_map]
  rfl

/-- The canonical bytes of a payload. -/
def payload {α : Type} [Serialize α] (a : α) : Bytes := (reference.encode a).getD []

def byUser : Author := ⟨"user", .user, none⟩
def byAgent : Author := ⟨"agent", .provider, none⟩

/-- A subject of the sample logs. -/
def sampleSubject (id : RecordId) (time : Time) (author : Author) (kind : Kind) (schema : String)
    (data : Bytes) (refs : List Ref) : Record where
  id := id
  space := 1
  thread := 1
  time := time
  author := author
  kind := kind
  schema := reference.schemaId schema
  data := data
  refs := refs
  evidence := .reported

/-- The verdict that accepts a subject. -/
def acceptance (id : RecordId) (subject : Record) : Record where
  id := id
  space := subject.space
  thread := subject.thread
  time := subject.time + 1
  author := ⟨"verifier", .verifier, none⟩
  kind := .verdict
  schema := reference.schemaId schemaVerdict
  data := payload (⟨.accept, none⟩ : VerdictData)
  refs := [⟨.cause, subject.id⟩]
  evidence := .deterministic

def sampleRequestData : RequestData where
  objective := "o"
  scope := 1
  attachments := []
  parentRequestId := none

def sampleRequest : Record :=
  sampleSubject 0x804d59d69c2b17bafd899937e5396385ab8859aa6d6e80b5774fb9691c2162e7
    1 byUser .request schemaRequest (payload sampleRequestData) []

def sampleCapabilityData : CapabilityData where
  actorId := "agent"
  actionClass := "c"
  scope := 1
  mode := .ask
  expiry := none

def sampleCapability : Record :=
  sampleSubject 0xf8b57b0abf6e889298fd1d07411c5a953a387a5f93b0126f61b32b7ed2e4af9d
    3 byUser .capability schemaCapability (payload sampleCapabilityData) []

/-- The approval is for the hash of `sampleActionData`. -/
def sampleApprovalData : ApprovalData where
  targetAction := some 0xe4f63d674db481ec1372d5b82725def1a5e0ec12b21320eed87424d53d14abe2
  actionClass := none
  scope := 1
  actorId := some "agent"
  expiry := none

def sampleApproval : Record :=
  sampleSubject 0xd8af16f3f8786f48198398a27495632b5f26cbd5ae8af7510ef54f0183fed17a
    5 byUser .approval schemaApproval (payload sampleApprovalData) []

def sampleActionData : ActionData where
  requestId := sampleRequest.id
  actionClass := "c"
  scope := 1
  execMode := .internal
  params := ⟨.null⟩

def sampleAction : Record :=
  sampleSubject 0x42983a79be51e7975b30ca605df8e0f23724dfe9d73c7d0258a090ab41c81030
    7 byAgent .action schemaAction (payload sampleActionData)
    [⟨.cause, sampleRequest.id⟩, ⟨.require, sampleApproval.id⟩, ⟨.require, sampleCapability.id⟩]

/-- The first pair of the sample log. -/
def sampleRound : List Record :=
  [sampleRequest,
    acceptance 0x4c481fe108dbdcdc68a6fa04b9291866d7dd246fe618dcd90c1193dadb163fc2 sampleRequest]

def sampleLog : List Record :=
  sampleRound ++
  [sampleCapability,
    acceptance 0x57c6ed812b5fd90ec47cab46ad86ef6a320bb7f3dc6d085fd6a4fce200bf24d7 sampleCapability,
    sampleApproval,
    acceptance 0x80c642c42c0e20895fb5c51da11b2ee795c95dcbcb2fe1ca4fd4cf2def2bf60a sampleApproval,
    sampleAction,
    acceptance 0x7026b21a96991fafc3c7e38a7d448b301a72153e01beb39d72277f5b410c5d76 sampleAction]

/-- The sample log, replayed. -/
def sampleHistory : reference.AcceptedLog sampleRules where
  val := sampleLog
  property := by decide +kernel

theorem sampleLog_accepts : reference.Accepts sampleRules sampleLog := sampleHistory.property

theorem sampleLog_hashSound : reference.HashSound sampleLog := by
  obtain ⟨s, hv⟩ := accepts_iff.mp sampleLog_accepts
  refine hashSound_of_nodup hv.ids ?_ (by decide +kernel)
  rw [map_schemaId]
  decide +kernel

theorem sampleRound_accepts : reference.Accepts sampleRules sampleRound := by
  obtain ⟨s, hv⟩ := accepts_iff.mp sampleLog_accepts
  exact accepts_iff.mpr (hv.take (k := 1) (by decide))

theorem sampleApproval_accepted : sampleApproval ∈ reference.accepted sampleLog := by decide +kernel

theorem sampleAction_accepted : sampleAction ∈ reference.accepted sampleLog := by decide +kernel

/-- A Request without a payload, and its verdict: it is rejected in every space. -/
def strayRound (space : SpaceId) (id verdictId : RecordId) : List Record :=
  let subject := { sampleSubject id 1 byUser .request schemaRequest [] [] with space }
  [subject, { acceptance verdictId subject with
    data := payload (⟨.reject, some .invalidPayload⟩ : VerdictData) }]

/-- The stray pair in the space of the sample rules. -/
def strayLog : List Record :=
  strayRound 1 0xcc29c262493278091234edfea2047a596839f3b036c36496b7686631721ca8b2
    0x5f62e5261c27da2dd4ffde89335e83bd472329b80404299ba27d50f43fa21b02

theorem strayLog_hashSound : reference.HashSound strayLog := by
  refine hashSound_of_nodup (by decide +kernel) ?_ (by decide +kernel)
  rw [map_schemaId]
  decide +kernel

theorem strayLog_accepts : reference.Accepts sampleRules strayLog := by decide +kernel

end Bellbook
