import Bellbook.Verify.Evidence
import Bellbook.Verify.Lifecycle

/-!
# Signatures and strong evidence

Keys pinned to an actor authenticate it: every accepted record in its name is signed by one of them.
Evidence above `Reported` is earned: it is only had by a Result that closes an external Action, under
the external schema and with such a signature. The guarantee is spread over the generic signature
check, the checks of Results and Evaluations, the base evidence of the schemas, and the Candidate an
attested Evaluation has to use.
-/

namespace Bellbook

open Std

namespace Platform

variable (P : Platform)

/-- The record is signed over its own signing bytes, with a key the rules pin to its author. -/
def PinnedSignature (rules : VerifierRules) (a : Record) : Prop :=
  ∃ keys key sig message, rules.authorKeys[a.author.id]? = some keys ∧ key ∈ keys ∧
    P.verifiedKey a = some key ∧ a.author.signature = some sig ∧ hexDecode sig.keyId = some key ∧
    P.signingBytes a = some message ∧ P.verifyStrict key message sig.sig = true

/-- The record answers the accepted Action `b` with payload `d`. -/
def ClosesWith (L : List Record) (a b : Record) (d : ActionData) : Prop :=
  a.kind = .result ∧ b ∈ P.accepted L ∧ b.kind = .action ∧
    (∃ data, P.decode ResultData a.data = some data ∧ data.actionId = b.id) ∧
    P.decode ActionData b.data = some d

end Platform

variable {P : Platform} {rules : VerifierRules} {L : List Record} {s : State} {r a b : Record}

/-! ## The generic check -/

/-- What `verified_key` has checked. -/
theorem verifiedKey_eq_some {key : Hash256} (h : P.verifiedKey r = some key) :
    ∃ sig message, r.author.signature = some sig ∧ hexDecode sig.keyId = some key ∧
      P.signingBytes r = some message ∧ P.verifyStrict key message sig.sig = true := by
  simp only [Platform.verifiedKey, Option.bind_eq_bind, Option.bind_eq_some_iff] at h
  obtain ⟨sig, hsig, key', hkey, hrest⟩ := h
  split at hrest
  · simp at hrest
  · simp only [Option.bind_eq_some_iff] at hrest
    obtain ⟨message, hmessage, hverify⟩ := hrest
    split at hverify
    · next hstrict =>
      obtain rfl : key' = key := Option.some.inj hverify
      exact ⟨sig, message, hsig, hkey, hmessage, hstrict⟩
    · cases hverify

/-- A record in the name of a pinned actor is signed with a pinned key. -/
theorem PassesGeneric.pinned {prior : Prior} (h : PassesGeneric P rules prior s r)
    (hpinned : r.author.id ∈ rules.authorKeys) : P.PinnedSignature rules r := by
  have hsig := h.signature
  simp only [Platform.checkSignature, orElse_none_iff, rejectIf_eq_none, hpinned, or_true,
    true_and] at hsig
  obtain ⟨hpresent, hverified⟩ := hsig
  rw [if_neg hpresent, orReject_eq_none] at hverified
  obtain ⟨key, hkey, hallowed⟩ := hverified
  obtain ⟨keys, hkeys⟩ := Option.isSome_iff_exists.mp
    (ExtTreeMap.mem_iff_isSome_getElem?.mp hpinned)
  simp only [rejectIf_eq_none, hkeys, Option.any_some, decide_eq_true_eq, not_not] at hallowed
  obtain ⟨sig, message, hrest⟩ := verifiedKey_eq_some hkey
  exact ⟨keys, key, sig, message, hkeys, hallowed, hkey, hrest⟩

/-! ## Results and attested Evaluations -/

/-- What the check of a Result establishes of the Action it closes. -/
theorem checkResult_action {prior : Prior} (hk : r.kind = .result)
    (h : PassesGeneric P rules prior s r) :
    ∃ data action d, P.decode ResultData r.data = some data ∧ data.actionId ∈ s.openActions ∧
      prior.find data.actionId = some action ∧ P.decode ActionData action.data = some d ∧
      (d.execMode = .external ↔ r.schema = P.schemaId schemaResultExternal) ∧
      (d.execMode = .external → r.author.id ∈ rules.authorKeys) := by
  have hkind := h.kind
  simp only [Platform.checkKindSpecific, hk, Platform.checkResult, orReject_eq_none,
    orElse_none_iff, rejectIf_eq_none, not_not] at hkind
  obtain ⟨data, hdata, -, hopen, action, hfind, -, d, hd, hmode, -⟩ := hkind
  refine ⟨data, action, d, hdata, hopen, hfind, hd, ?_, ?_⟩
  · cases hexec : d.execMode with
    | external =>
      simp only [hexec, orElse_none_iff, rejectIf_eq_none, not_not] at hmode
      simp [hmode.1]
    | internal =>
      simp only [hexec, rejectIf_eq_none] at hmode
      simp [hmode]
  · intro hexec
    simp only [hexec, orElse_none_iff, rejectIf_eq_none, not_not] at hmode
    exact hmode.2.2

/-- An attested Evaluation is by a pinned actor. -/
theorem checkEvaluation_attested {prior : Prior} (hk : r.kind = .evaluation)
    (hschema : r.schema = P.schemaId schemaEvaluationAttested) (h : PassesGeneric P rules prior s r) :
    r.author.id ∈ rules.authorKeys := by
  have hkind := h.kind
  simp only [Platform.checkKindSpecific, hk, Platform.checkEvaluation, hschema, or_true, if_true,
    Platform.checkEvaluationV2, orReject_eq_none, orElse_none_iff, rejectIf_eq_none, not_not] at hkind
  obtain ⟨data, -, hsigned, -⟩ := hkind
  exact hsigned.2

namespace Verified

/-- The checks an accepted record has passed, and the records before it. -/
theorem passes (h : Verified P rules L s) (hs : P.HashSound L) (ha : a ∈ P.accepted L) :
    ∃ (i : Nat) (hi : i < L.length) (t : State), a = L[i] ∧ Verified P rules (L.take i) t ∧
      PassesGeneric P rules (priorView (L.take i)) t a := by
  obtain ⟨i, hi, rfl⟩ := List.mem_iff_getElem.mp (mem_of_mem_accepted ha)
  obtain ⟨t, ht, hc⟩ := h.accepted_at hs hi ha
  exact ⟨i, hi, t, rfl, ht, checkSubject_passes hc⟩

/-- The Action an accepted Result closes. -/
theorem result_closes (h : Verified P rules L s) (hs : P.HashSound L) (ha : a ∈ P.accepted L)
    (hk : a.kind = .result) : ∃ b d, P.ClosesWith L a b d ∧
      (d.execMode = .external ↔ a.schema = P.schemaId schemaResultExternal) ∧
      (d.execMode = .external → P.PinnedSignature rules a) := by
  obtain ⟨i, hi, t, -, ht, hpass⟩ := h.passes hs ha
  obtain ⟨data, b, d, hdata, hopen, hfind, hd, hiff, hpinned⟩ := checkResult_action hk hpass
  obtain ⟨hmem, hid⟩ := find_mem hfind
  -- an open action is an accepted Action, and ids tell the records of the log apart
  obtain ⟨⟨b', hb', hid', hkind⟩, -⟩ := (ht.actionsInv.isOpen _).mp hopen
  obtain rfl : b' = b := ht.eq_of_id_eq (hs.mono (List.take_subset _ _)) (mem_of_mem_accepted hb') hmem
    (hid'.trans hid.symm)
  refine ⟨b', d, ⟨hk, accepted_mono ht.run (List.take_prefix _ _) hb', hkind,
    ⟨data, hdata, hid.symm⟩, hd⟩, hiff, fun hexec => hpass.pinned (hpinned hexec)⟩

/-- Evidence above `Reported` comes from the external schema. -/
theorem schema_of_strong (h : Verified P rules L s) (hs : P.HashSound L) (hfrozen : P.Frozen rules)
    (ha : a ∈ P.accepted L) (hstrong : a.evidence < .reported) :
    a.kind = .result ∧ a.schema = P.schemaId schemaResultExternal := by
  obtain ⟨i, hi, t, rfl, ht, hpass⟩ := h.passes hs ha
  obtain ⟨name, hname, hid⟩ := hpass.schema_name hfrozen
  have hkind : L[i].kind ≠ .verdict := (h.run.mem_of_mem_accepted ha).2
  have heval : L[i].kind ≠ .evaluation := by
    intro hk
    exact absurd (h.evaluation_le hs hfrozen hi ha hk) hstrong.not_ge
  obtain ⟨u, -, hgreatest⟩ := h.evidence_isGreatest hs hi ha
  have hbase : P.baseEvidence (P.schemaId name) < .reported := by
    rw [hid]
    exact (hgreatest.2 (.inl rfl)).trans_lt hstrong
  rw [baseEvidence_schemaId hs.schemasDistinct (schemaKinds_names ▸ List.mem_map_of_mem hname)] at hbase
  -- by the table of base classes, only the verdict, the attested and the external schema are stronger
  have htable : ∀ p ∈ schemaKinds, (schemaEvidence.lookup p.1).getD .assumed < .reported →
      p.2 ≠ .verdict → p.2 ≠ .evaluation → p.1 = schemaResultExternal ∧ p.2 = .result := by
    decide
  obtain ⟨rfl, hresult⟩ := htable (name, L[i].kind) hname hbase hkind heval
  exact ⟨hresult, hid.symm⟩

end Verified

/-- **Strong evidence is earned and pinned identities are authenticated.** In an accepted log, every
accepted record of a pinned actor is signed with a pinned key; every accepted record with evidence
`Verified` or `Deterministic` is a Result under the external schema that closes an accepted external
Action and is so signed, and so is every attested Evaluation; and a Result that closes an external
Action is under the external schema. -/
theorem strong_evidence_earned (hfrozen : P.Frozen rules) (hs : P.HashSound L)
    (h : P.Accepts rules L) (a : Record) (ha : a ∈ P.accepted L) :
    (a.author.id ∈ rules.authorKeys → P.PinnedSignature rules a) ∧
      (a.evidence = .verified ∨ a.evidence = .deterministic →
        a.schema = P.schemaId schemaResultExternal ∧ P.PinnedSignature rules a ∧
          ∃ b d, P.ClosesWith L a b d ∧ d.execMode = .external) ∧
      (a.schema = P.schemaId schemaEvaluationAttested → P.PinnedSignature rules a) ∧
      (∀ b d, P.ClosesWith L a b d → d.execMode = .external →
        a.schema = P.schemaId schemaResultExternal) := by
  obtain ⟨s, hv⟩ := accepts_iff.mp h
  obtain ⟨i, hi, t, -, -, hpass⟩ := hv.passes hs ha
  refine ⟨hpass.pinned, ?_, ?_, ?_⟩
  · intro hevidence
    have hstrong : a.evidence < .reported := by
      rcases hevidence with he | he <;> rw [he] <;> decide
    obtain ⟨hk, hschema⟩ := hv.schema_of_strong hs hfrozen ha hstrong
    obtain ⟨b, d, hcloses, hiff, hsigned⟩ := hv.result_closes hs ha hk
    have hexec := hiff.mpr hschema
    exact ⟨hschema, hsigned hexec, b, d, hcloses, hexec⟩
  · intro hschema
    obtain ⟨name, hname, hid⟩ := hpass.schema_name hfrozen
    have heq : name = schemaEvaluationAttested := hs.schemasDistinct _
      (schemaKinds_names ▸ List.mem_map_of_mem hname) _ (by decide) (hid.trans hschema)
    have hk : a.kind = .evaluation := by
      have htable : ∀ p ∈ schemaKinds, p.1 = schemaEvaluationAttested → p.2 = .evaluation := by decide
      exact htable _ hname heq
    exact hpass.pinned (checkEvaluation_attested hk hschema hpass)
  · rintro b d ⟨hk, hb, -, ⟨data, hdata, hid⟩, hd⟩ hexec
    obtain ⟨b', d', ⟨-, hb', -, ⟨data', hdata', hid'⟩, hd'⟩, hiff, -⟩ := hv.result_closes hs ha hk
    obtain rfl : data = data' := Option.some.inj (hdata.symm.trans hdata')
    obtain rfl : b = b' := hv.run.eq_of_accepted_id hb hb' (hid.symm.trans hid')
    obtain rfl : d = d' := Option.some.inj (hd.symm.trans hd')
    exact hiff.mp hexec

/-! ## A signed log -/

/-- The reference platform with an Ed25519 that accepts every signature. -/
def permissive : Platform := { reference with verifyStrict := fun _ _ _ => true }

/-- The sample rules with a key pinned to the user. -/
def pinnedRules : VerifierRules :=
  { sampleRules with
    authorKeys := (∅ : ExtTreeMap ActorId (ExtTreeSet Hash256)).insert "user"
      ((∅ : ExtTreeSet Hash256).insert 5) }

def signedRequest : Record :=
  sampleSubject 0x45d11e9b04e69bd2d03bb46e6de16f096d6991fd3a6154df73dcad7f2983720f 1
    ⟨"user", .user, some ⟨hexEncode 5, List.replicate 64 0⟩⟩ .request schemaRequest
    (payload sampleRequestData) []

def signedLog : List Record :=
  [signedRequest,
    acceptance 0xaa0bc171f8cbef485b8f40cb29ff4af2fddf731e0d60f686e6571fc087e53cd4 signedRequest]

theorem signedLog_accepts : permissive.Accepts pinnedRules signedLog := by decide +kernel

theorem pinnedRules_frozen : permissive.Frozen pinnedRules := sampleRules_frozen

theorem signedLog_hashSound : permissive.HashSound signedLog := by
  refine hashSound_of_nodup (by decide +kernel) ?_ (by decide +kernel)
  rw [show allSchemas.map permissive.schemaId = schemaDigests from map_schemaId]
  decide +kernel

/-- The signed Request of the pinned user. -/
theorem signedRequest_pinned : permissive.PinnedSignature pinnedRules signedRequest := by
  have hall := strong_evidence_earned pinnedRules_frozen signedLog_hashSound signedLog_accepts
    signedRequest (by decide +kernel)
  exact hall.1 (by decide +kernel)

end Bellbook
