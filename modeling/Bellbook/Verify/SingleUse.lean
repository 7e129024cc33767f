import Bellbook.Verify.Authority

/-!
# Exact approvals are single-use

The approval that authorizes a record is resolved by the check, from a hash the check computes; it
is taken out of the state by the fold, from a hash the fold computes. The two agree, an approval
sits under one hash only (`Verified.exact_hash_unique`), and nothing but its own fold puts it
there. So whatever takes an exact approval out takes it out for good (`Verified.spent_forever`).
-/

namespace Bellbook

open Std

namespace Platform

variable (P : Platform)

/-- The approval that `check_action` resolves for an Ask-mode Action. -/
def actionApproval (prior : Prior) (s : State) (r : Record) : Option RecordId := do
  let data ← P.decode ActionData r.data
  let capId ← s.activeCapabilities[((r.author.id, data.actionClass, data.scope) : CapabilityKey)]?
  let cap ← prior.find capId
  let capData ← P.decode CapabilityData cap.data
  match P.resolveAuthority prior s r data capData.mode with
  | .ok id => id
  | .error _ => none

/-- The approval that `check_selection` resolves for a Selection. -/
def selectionApproval (rules : VerifierRules) (prior : Prior) (s : State) (r : Record) :
    Option RecordId := do
  let data ← P.decode SelectionData r.data
  match P.resolveSelectionApproval rules prior s r data with
  | .ok id => id
  | .error _ => none

/-- The approval a record is authorized by, if its kind needs one. -/
def authorizingApproval (rules : VerifierRules) (prior : Prior) (s : State) (r : Record) :
    Option RecordId :=
  match r.kind with
  | .action => P.actionApproval prior s r
  | .selection => P.selectionApproval rules prior s r
  | _ => none

/-- The accepted record at position `i` was authorized by the approval. -/
def AuthorizedAt (rules : VerifierRules) (L : List Record) (i : Nat) (id : RecordId) : Prop :=
  ∃ (hi : i < L.length) (s : State), L[i] ∈ P.accepted L ∧
    P.buildStateUnchecked (L.take i) = some s ∧
    P.authorizingApproval rules (priorView (L.take i)) s L[i] = some id

/-- The fold of the accepted record at position `i` took the approval out of the state. -/
def ConsumedAt (L : List Record) (i : Nat) (id : RecordId) : Prop :=
  ∃ (hi : i < L.length) (s : State) (hash : Hash256), L[i] ∈ P.accepted L ∧
    P.buildStateUnchecked (L.take i) = some s ∧ P.SubjectHash L[i] hash ∧
    s.consumedApproval L[i] hash = some id

end Platform

variable {P : Platform} {rules : VerifierRules} {L : List Record} {s s' : State} {a r : Record}

/-! ## Resolution -/

/-- An exact approval that authorizes a record: where it was found, and whom it names. -/
structure ExactUse (P : Platform) (prior : Prior) (s : State) (a : Record) (id : RecordId)
    (hash : Hash256) (p : Record) (d : ApprovalData) : Prop where
  subject : P.SubjectHash a hash
  slot : s.validApprovals[hash]? = some id
  named : a.hasRequireRef id = true
  find : prior.find id = some p
  payload : P.decode ApprovalData p.data = some d
  actor : d.actorId = some a.author.id

theorem resolveSelectionApproval_eq_ok {prior : Prior} {data : SelectionData} {id : RecordId}
    (hk : r.kind = .selection) (hd : P.decode SelectionData r.data = some data)
    (h : P.resolveSelectionApproval rules prior s r data = .ok (some id)) :
    ∃ hash p d, ExactUse P prior s r id hash p d := by
  unfold Platform.resolveSelectionApproval at h
  split at h
  · cases h
  split at h
  · cases h
  next hash hhash =>
  split at h
  · cases h
  next id' hslot =>
  split at h
  · cases h
  next hnamed =>
  split at h
  · cases h
  split at h
  · cases h
  next p hp =>
  split at h
  · cases h
  next d hdec =>
  split at h
  · cases h
  next hactor =>
  split at h
  · cases h
  cases h
  exact ⟨hash, p, d, .inr ⟨hk, data, hd, hhash⟩, hslot, by simpa using hnamed, hp, hdec,
    not_not.mp hactor⟩

/-- The approval resolved for an Action that passes. -/
theorem actionApproval_eq_some {prior : Prior} {id : RecordId}
    (hc : P.checkAction prior s r = none) (h : P.actionApproval prior s r = some id) :
    ∃ data, P.decode ActionData r.data = some data ∧ r.hasRequireRef id = true ∧
      ∃ p d, ResolvedApproval P prior s r data id p d := by
  obtain ⟨data, request, rd, capId, cap, cd, hb⟩ := checkAction_eq_none hc
  refine ⟨data, hb.payload, ?_⟩
  simp only [Platform.actionApproval, hb.payload, hb.slot, hb.findCap, hb.capPayload,
    Option.bind_eq_bind, Option.bind_some] at h
  rcases hb.mode with hauto | ⟨hask, id', hok, hnamed⟩
  · simp [hauto, Platform.resolveAuthority] at h
  · simp only [hask, Platform.resolveAuthority, hok, Except.map, Option.some.injEq] at h
    subst h
    exact ⟨hnamed, checkApprovalForAction_eq_ok hok⟩

/-- A class slot never holds an exact approval. -/
theorem Verified.class_slot_not_exact (h : Verified P rules L s) (hs : P.HashSound L)
    {key : ClassApprovalKey} {id : RecordId}
    (hexact : ∀ q ∈ P.accepted L, q.id = id → ∀ d, P.Approves q d → d.targetAction.isSome = true) :
    s.classApprovals[key]? ≠ some id := by
  intro hslot
  obtain ⟨q, hq, hid, d, hd, hclass⟩ := h.authorityInv.byClass _ _ hslot
  have hform := h.approval_form hs hq hd
  obtain ⟨cls, hcls, -⟩ := Option.map_eq_some_iff.mp hclass
  simp [hexact q hq hid d hd, hcls] at hform

/-- An exact approval that authorizes an accepted record was found under the record's own subject
hash, and names the record's author. -/
theorem Verified.exactUse (h : Verified P rules L s) (hs : P.HashSound L)
    (hc : P.checkSubject rules (priorView L) s a = none) {id : RecordId}
    (hexact : ∀ q ∈ P.accepted L, q.id = id → ∀ d, P.Approves q d → d.targetAction.isSome = true)
    (hauth : P.authorizingApproval rules (priorView L) s a = some id) :
    ∃ hash p d, ExactUse P (priorView L) s a id hash p d := by
  have hkind := (checkSubject_passes hc).kind
  unfold Platform.authorizingApproval at hauth
  cases hk : a.kind <;> simp only [hk, reduceCtorEq] at hauth
  case action =>
    simp only [Platform.checkKindSpecific, hk] at hkind
    obtain ⟨data, hdata, hnamed, q, d', hr⟩ := actionApproval_eq_some hkind hauth
    rcases hr.slot with ⟨hash, hhash, hslot, hactor, -⟩ | ⟨actor, -, hslot⟩
    · exact ⟨hash, q, d', .inl ⟨hk, data, hdata, hhash⟩, hslot, hnamed, hr.find, hr.payload, hactor⟩
    · exact absurd hslot (h.class_slot_not_exact hs hexact)
  case selection =>
    obtain ⟨data, hdata, hres⟩ := Option.bind_eq_some_iff.mp hauth
    split at hres
    · next id' hok =>
      subst hres
      exact resolveSelectionApproval_eq_ok hk hdata hok
    · cases hres

/-! ## Consumption -/

theorem SubjectHash_unique {hash hash' : Hash256} (h : P.SubjectHash r hash)
    (h' : P.SubjectHash r hash') : hash = hash' := by
  rcases h with ⟨hk, data, hd, hh⟩ | ⟨hk, data, hd, hh⟩ <;>
    rcases h' with ⟨hk', data', hd', hh'⟩ | ⟨hk', data', hd', hh'⟩
  · rw [hd] at hd'
    cases hd'
    exact Option.some.inj (hh.symm.trans hh')
  · simp [hk] at hk'
  · simp [hk] at hk'
  · rw [hd] at hd'
    cases hd'
    exact Option.some.inj (hh.symm.trans hh')

/-- An approval sits under one hash only, the target it was issued for. -/
theorem Verified.exact_hash_unique (h : Verified P rules L s) {hash hash' : Hash256}
    {id : RecordId} (hslot : s.validApprovals[hash]? = some id)
    (hslot' : s.validApprovals[hash']? = some id) : hash = hash' := by
  obtain ⟨p, hp, rfl, d, hd, htarget⟩ := h.authorityInv.exact _ _ hslot
  obtain ⟨q, hq, hid, d', hd', htarget'⟩ := h.authorityInv.exact _ _ hslot'
  obtain rfl := h.run.eq_of_accepted_id hq hp hid
  obtain rfl : d' = d := Option.some.inj (hd'.2.symm.trans hd.2)
  exact Option.some.inj (htarget.symm.trans htarget')

theorem consumedApproval_eq_some {hash : Hash256} {id : RecordId} :
    s.consumedApproval r hash = some id ↔
      s.validApprovals[hash]? = some id ∧ r.hasRequireRef id = true := by
  simp [State.consumedApproval, Option.filter_eq_some_iff]

/-- The fold of a record takes out the approval under its subject hash. -/
theorem AuthorityFold.spent (h : AuthorityFold P s r s') {hash hash' : Hash256} {id : RecordId}
    (hh : P.SubjectHash r hash) (hcons : s.consumedApproval r hash = some id)
    (hunique : ∀ hash', s.validApprovals[hash']? = some id → hash' = hash) :
    s'.validApprovals[hash']? ≠ some id := by
  intro hslot
  have hkind : r.kind = .action ∨ r.kind = .selection := hh.imp And.left And.left
  cases h with
  | @spend hash₀ hh₀ _ hexact =>
    obtain rfl := SubjectHash_unique hh hh₀
    rw [hexact] at hslot
    obtain rfl := hunique _ (of_getElem?_spendApproval hslot)
    simp [State.spendApproval, hcons] at hslot
  | capability hk => simp [hk] at hkind
  | approval hd => simp [hd.1] at hkind
  | retraction hk => simp [hk] at hkind
  | other hk => exact hkind.elim hk.2.2.1 hk.2.2.2

/-- Once an accepted approval is out of the state, no later round puts it back. -/
theorem Verified.absent_step {v : Record} (h : Verified P rules L s)
    (hstep : PairStep P rules L s r v s') {id : RecordId} (hid : id ∈ s.acceptedRecords)
    (habsent : ∀ hash : Hash256, s.validApprovals[hash]? ≠ some id) (hash : Hash256) :
    s'.validApprovals[hash]? ≠ some id := by
  rcases h.run.step_cases hstep with ⟨-, -, rfl⟩ | ⟨-, -, t, hf, rfl⟩
  · exact habsent hash
  · intro hslot
    rcases hf.authority.exact_slot hslot with ⟨rfl, -⟩ | hslot
    · obtain ⟨a, ha, hid⟩ := h.run.mem_acceptedRecords.mp hid
      obtain ⟨haL, hak⟩ := h.run.mem_of_mem_accepted ha
      exact h.run.fresh hstep haL hak hid
    · exact habsent hash hslot

/-- **What consumes an approval consumes it for good.** -/
theorem Verified.spent_forever (h : Verified P rules L s) {i : Nat} {id : RecordId}
    (hcons : P.ConsumedAt L i id) {j : Nat} (hij : i < j) (hj : j < L.length)
    (haj : L[j] ∈ P.accepted L) {t : State} (ht : Verified P rules (L.take j) t) (hash : Hash256) :
    t.validApprovals[hash]? ≠ some id := by
  obtain ⟨hi, s₀, hash₀, ha, hbuild, hh, hcons⟩ := hcons
  obtain ⟨k, hk, t₀, u, rfl, ht₀, -, hu, hafter, -⟩ := h.accepted_round hi ha
  obtain ⟨n, -, -, -, rfl, -⟩ := h.accepted_round hj haj
  obtain rfl : t₀ = s₀ := Option.some.inj (ht₀.run.build.symm.trans hbuild)
  have hslot := (consumedApproval_eq_some.mp hcons).1
  have hid₀ : id ∈ t₀.acceptedRecords := ht₀.run.authority_accepted (.inr (.inl ⟨hash₀, hslot⟩))
  -- out right after the consumer, and kept out by every later round
  have hlater : ∀ m, k + 1 ≤ m → 2 * m ≤ L.length → ∀ w, Verified P rules (L.take (2 * m)) w →
      ∀ hash : Hash256, w.validApprovals[hash]? ≠ some id := by
    intro m hm
    induction m, hm using Nat.le_induction with
    | base =>
      intro _ w hw hash
      obtain rfl := hafter.run.unique hw.run
      exact hu.authority.spent hh hcons fun hash' hslot' => ht₀.exact_hash_unique hslot' hslot
    | succ m hm ih =>
      intro hlen w hw hash
      obtain ⟨x, y, hx, hstep, hy⟩ := h.pair_at (k := m) (by omega)
      rw [← take_two_more (by omega)] at hy
      obtain rfl := hy.run.unique hw.run
      refine hx.absent_step hstep ?_ (ih (by omega) x hx) hash
      obtain ⟨b, hb, rfl⟩ := ht₀.run.mem_acceptedRecords.mp hid₀
      exact hx.run.mem_acceptedRecords.mpr ⟨b, accepted_mono ht₀.run
        (List.take_prefix_take_left (by omega)) hb, rfl⟩
  exact hlater n (by omega) (by omega) t ht hash

/-- **Exact approvals are single-use over whole runs.** An exact approval authorizes at most one
accepted record; that record consumes it; once consumed, by whatever record, it authorizes nothing
later; and it names the author of the record it authorizes. -/
theorem exact_approval_single_use (hs : P.HashSound L) (h : P.Accepts rules L) {p : Record}
    {d : ApprovalData} (hp : p ∈ P.accepted L) (hd : P.Approves p d)
    (hexact : d.targetAction.isSome = true) :
    (∀ i j, P.AuthorizedAt rules L i p.id → P.AuthorizedAt rules L j p.id → i = j) ∧
      (∀ i, P.AuthorizedAt rules L i p.id → P.ConsumedAt L i p.id) ∧
      (∀ i j, P.ConsumedAt L i p.id → i < j → ¬P.AuthorizedAt rules L j p.id) ∧
      ∀ i, P.AuthorizedAt rules L i p.id →
        ∃ hi : i < L.length, d.actorId = some L[i].author.id := by
  obtain ⟨s, hv⟩ := accepts_iff.mp h
  have huse {i : Nat} {hi : i < L.length} {t : State} (ha : L[i] ∈ P.accepted L)
      (hbuild : P.buildStateUnchecked (L.take i) = some t)
      (hauth : P.authorizingApproval rules (priorView (L.take i)) t L[i] = some p.id) :
      Verified P rules (L.take i) t ∧
        ∃ hash, ExactUse P (priorView (L.take i)) t L[i] p.id hash p d := by
    obtain ⟨t', ht, hc⟩ := hv.accepted_at hs hi ha
    obtain rfl : t' = t := Option.some.inj (ht.run.build.symm.trans hbuild)
    have hs' : P.HashSound (L.take i) := hs.mono (List.take_subset _ _)
    -- an accepted record with this id is the approval itself
    have hsame {q : Record} (hq : q ∈ P.accepted (L.take i)) (hid : q.id = p.id) : q = p :=
      hv.run.eq_of_accepted_id (accepted_mono ht.run (List.take_prefix _ _) hq) hp hid
    refine ⟨ht, ?_⟩
    obtain ⟨hash, q, d', hu⟩ := ht.exactUse hs' hc (fun q hq hid d' hd' => by
      obtain rfl := hsame hq hid
      rwa [Option.some.inj (hd'.2.symm.trans hd.2)]) hauth
    obtain ⟨b, hb, hbid, -⟩ := ht.authorityInv.exact _ _ hu.slot
    obtain rfl := hsame hb hbid
    obtain rfl : b = q := Option.some.inj
      (((ht.find_eq_some hs').mpr ⟨mem_of_mem_accepted hb, rfl⟩).symm.trans hu.find)
    obtain rfl : d' = d := Option.some.inj (hu.payload.symm.trans hd.2)
    exact ⟨hash, hu⟩
  have hconsumes (i : Nat) (hi : P.AuthorizedAt rules L i p.id) : P.ConsumedAt L i p.id := by
    obtain ⟨hi, t, ha, hbuild, hauth⟩ := hi
    obtain ⟨-, hash, hu⟩ := huse ha hbuild hauth
    exact ⟨hi, t, hash, ha, hbuild, hu.subject, consumedApproval_eq_some.mpr ⟨hu.slot, hu.named⟩⟩
  have hnever (i j : Nat) (hi : P.ConsumedAt L i p.id) (hij : i < j) :
      ¬P.AuthorizedAt rules L j p.id := by
    rintro ⟨hj, t, ha, hbuild, hauth⟩
    obtain ⟨ht, hash, hu⟩ := huse ha hbuild hauth
    exact hv.spent_forever hi hij hj ha ht hash hu.slot
  refine ⟨fun i j hi hj => ?_, hconsumes, hnever, fun i hi => ?_⟩
  · rcases Nat.lt_trichotomy i j with hlt | heq | hlt
    · exact absurd hj (hnever i j (hconsumes i hi) hlt)
    · exact heq
    · exact absurd hi (hnever j i (hconsumes j hj) hlt)
  · obtain ⟨hi, t, ha, hbuild, hauth⟩ := hi
    obtain ⟨-, hash, hu⟩ := huse ha hbuild hauth
    exact ⟨hi, hu.actor⟩

/-- The Action of the sample log consumes the Approval of it. -/
theorem sampleApproval_consumed : reference.ConsumedAt sampleLog 6 sampleApproval.id := by
  have hd : reference.Approves sampleApproval sampleApprovalData := ⟨rfl, by decide +kernel⟩
  have hauth : ((reference.buildStateUnchecked (sampleLog.take 6)).bind fun s =>
      reference.authorizingApproval sampleRules (priorView (sampleLog.take 6)) s sampleAction) =
        some sampleApproval.id := by decide +kernel
  obtain ⟨s, hbuild, hauth⟩ := Option.bind_eq_some_iff.mp hauth
  exact (exact_approval_single_use sampleLog_hashSound sampleLog_accepts sampleApproval_accepted hd
    rfl).2.1 6 ⟨by decide, s, sampleAction_accepted, hbuild, hauth⟩

end Bellbook
