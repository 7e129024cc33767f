import Bellbook.Verify.Taint

/-!
# Requirement keys

A Requirement holds its key under its request until it is retracted. The fold releases the key of a
retracted Requirement through a reverse index that is never pruned, so a second retraction of the
same Requirement releases the key again, even when another Requirement has taken it since.

`keysProperty_iff` says exactly when the keys are what they should be: the log has no retraction of
an already retracted Requirement whose key is held again (`ReleasesHeldKey`).
-/

namespace Bellbook

open Std

/-- `requirement_keys[request]`; an absent entry is the empty set. -/
def State.keysUnder (s : State) (request : RecordId) : ExtTreeSet String :=
  s.requirementKeys[request]?.getD ∅

namespace Platform

variable (P : Platform)

/-- The record is a Requirement that Causes the request and carries the key. -/
def RequirementUnder (x : Record) (request : RecordId) (key : String) : Prop :=
  x.kind = .requirement ∧ ⟨.cause, request⟩ ∈ x.refs ∧
    ∃ d, P.decode RequirementData x.data = some d ∧ d.key = key

/-- Some accepted, unretracted Requirement under the request has the key. -/
def HoldsKey (L : List Record) (request : RecordId) (key : String) : Prop :=
  ∃ x ∈ P.accepted L, P.RequirementUnder x request key ∧ ¬P.RetractedIn L x.id

/-- No two accepted, unretracted Requirements under one request have one key. -/
def KeysUnique (L : List Record) : Prop :=
  ∀ x ∈ P.accepted L, ∀ y ∈ P.accepted L, ∀ request key,
    P.RequirementUnder x request key → P.RequirementUnder y request key →
    ¬P.RetractedIn L x.id → ¬P.RetractedIn L y.id → x = y

/-- The state's keys are those of the accepted, unretracted Requirements. -/
def KeysExact (L : List Record) (s : State) : Prop :=
  ∀ request key, key ∈ s.keysUnder request ↔ P.HoldsKey L request key

/-- Keys are unique in the log, and the state of every even prefix has exactly the held ones. -/
def KeysProperty (L : List Record) : Prop :=
  P.KeysUnique L ∧ ∀ k, 2 * k ≤ L.length → ∀ s, P.buildStateUnchecked (L.take (2 * k)) = some s →
    P.KeysExact (L.take (2 * k)) s

/-- After the log, the record retracts a Requirement again while its key is held. -/
def RetractsHeldAgain (L : List Record) (r : Record) : Prop :=
  r.kind = .retraction ∧ ∃ d, P.decode RetractionData r.data = some d ∧
    P.RetractedIn L d.targetId ∧ ∃ q ∈ P.accepted L, q.id = d.targetId ∧
      ∃ request key, P.RequirementUnder q request key ∧ P.HoldsKey L request key

/-- The record at position `i` is accepted and does so. -/
def ReleasesHeldKey (L : List Record) (i : Nat) : Prop :=
  ∃ (hi : i < L.length), L[i] ∈ P.accepted L ∧ P.RetractsHeldAgain (L.take i) L[i]

end Platform

variable {P : Platform} {rules : VerifierRules} {L : List Record} {s s' : State} {r : Record}

/-! ## The two folds that touch the keys -/

theorem mem_keysUnder_insert {m : IdMap (ExtTreeSet String)} {request request' : RecordId}
    {key key' : String} :
    key' ∈ ((m.insert request ((m[request]?.getD ∅).insert key))[request']?.getD ∅) ↔
      (request = request' ∧ key = key') ∨ key' ∈ (m[request']?.getD ∅) := by
  by_cases hreq : request = request'
  · subst hreq
    rw [ExtTreeMap.getElem?_insert_self, Option.getD_some, Worklist.mem_insert_iff, eq_comm]
    simp
  · simp [ExtTreeMap.getElem?_insert, hreq]

/-- What a retraction leaves of the keys. -/
theorem mem_keysUnder_releaseKey {target request' : RecordId} {key' : String} :
    key' ∈ ((s.releaseKey target)[request']?.getD ∅) ↔
      key' ∈ s.keysUnder request' ∧ s.requirementIndex[target]? ≠ some (request', key') := by
  unfold State.releaseKey State.keysUnder
  cases hidx : s.requirementIndex[target]? with
  | none => simp
  | some p =>
    obtain ⟨request, key⟩ := p
    simp only [ne_eq, Option.some.injEq, Prod.mk.injEq, not_and]
    cases hkeys : s.requirementKeys[request]? with
    | none =>
      refine ⟨fun h => ⟨h, fun hreq => ?_⟩, And.left⟩
      subst hreq
      simp [hkeys] at h
    | some keys =>
      by_cases hreq : request = request'
      · subst hreq
        have herase : key' ∈ keys.erase key ↔ key' ∈ keys ∧ key ≠ key' := by
          rw [ExtTreeSet.mem_erase, ne_eq, LawfulEqOrd.compare_eq_iff_eq, and_comm]
        by_cases hempty : (keys.erase key).isEmpty = true
        · have : key' ∉ keys.erase key := by simp [ExtTreeSet.isEmpty_iff.mp hempty]
          rw [herase] at this
          simpa [hempty, hkeys] using this
        · simp [hempty, hkeys, herase]
      · by_cases hempty : (keys.erase key).isEmpty = true
        · simp [hempty, ExtTreeMap.getElem?_erase, hreq]
        · simp [hempty, ExtTreeMap.getElem?_insert, hreq]

/-- A fold, as far as the keys can tell. -/
inductive KeysFold (P : Platform) (s : State) (r : Record) (s' : State) : Prop
  | requirement (hk : r.kind = .requirement) {d : RequirementData}
      (hd : P.decode RequirementData r.data = some d) (heq : s' = s.foldRequirement r d)
  | retraction (hk : r.kind = .retraction) {d : RetractionData}
      (hd : P.decode RetractionData r.data = some d) (heq : s' = s.foldRetraction d)
  | other (hk : r.kind ≠ .requirement ∧ r.kind ≠ .retraction)
      (hkeys : s'.requirementKeys = s.requirementKeys)
      (hindex : s'.requirementIndex = s.requirementIndex)

theorem Folded.keys (h : Folded P s r s') : KeysFold P s r s' := by
  cases h with
  | requirement hk hd => exact .requirement hk hd rfl
  | retraction hk hd => exact .retraction hk hd rfl
  | @refusal hk data =>
    obtain ⟨_, _, _, _, heq⟩ := s.foldRefusal_eq data
    exact .other (by simp [hk]) (by rw [heq]) (by rw [heq])
  | @response hk data =>
    obtain ⟨_, _, _, heq⟩ := s.foldResponse_eq data
    exact .other (by simp [hk]) (by rw [heq]) (by rw [heq])
  | inert hk => exact .other (by rcases hk with hk | hk | hk <;> simp [hk]) rfl rfl
  | request hk | action hk | result hk | capability hk | approval hk | summary hk | usage hk
  | plan hk | selection hk => exact .other (by simp [hk]) rfl rfl

/-- What the check of a Requirement establishes. -/
theorem checkRequirement_passes {prior : Prior} (hc : P.checkSubject rules prior s r = none)
    (hk : r.kind = .requirement) {d : RequirementData}
    (hd : P.decode RequirementData r.data = some d) :
    ∃ request, r.firstCause = some request ∧ (∀ x, ⟨.cause, x⟩ ∈ r.refs ↔ x = request) ∧
      d.key ∉ s.keysUnder request := by
  have hkind := (checkSubject_passes hc).kind
  simp only [Platform.checkKindSpecific, hk, Platform.checkRequirement, hd, orReject_eq_none,
    Option.some.injEq, exists_eq_left', orElse_none_iff, rejectIf_eq_none] at hkind
  obtain ⟨-, -, hcause⟩ := hkind
  split at hcause
  · next request hrefs =>
    simp only [orReject_eq_none, orElse_none_iff, rejectIf_eq_none] at hcause
    obtain ⟨-, -, -, hfree⟩ := hcause
    refine ⟨request, ?_, fun x => ?_, ?_⟩
    · have hhead := congrArg List.head? hrefs
      rwa [refTargets, List.head?_map, List.head?_filter] at hhead
    · have hx : ⟨.cause, x⟩ ∈ r.refs ↔ x ∈ refTargets .cause r.refs := by
        rw [mem_refTargets]
        exact ⟨fun h => ⟨_, h, rfl, rfl⟩, fun ⟨⟨_, _⟩, h, rfl, rfl⟩ => h⟩
      rw [hx, hrefs, List.mem_singleton]
    · unfold State.keysUnder
      cases hkeys : s.requirementKeys[request]? with
      | none => simp
      | some keys => simpa [hkeys] using hfree
  · cases hcause

/-! ## One round -/

section Step

variable {v : Record} (hrun : Replays P rules L s) (hstep : PairStep P rules L s r v s')
include hrun hstep

/-- The next accepted subject is not retracted yet. -/
theorem not_retractedIn_next : ¬P.RetractedIn L r.id := by
  intro hr
  have hacc := hrun.retracted_accepted ((hrun.retracted r.id).mpr hr)
  obtain ⟨a, ha, hid⟩ := hrun.mem_acceptedRecords.mp hacc
  obtain ⟨haL, hak⟩ := hrun.mem_of_mem_accepted ha
  exact hrun.fresh hstep haL hak hid

theorem ne_next_of_accepted {x : Record} (hx : x ∈ P.accepted L) : x.id ≠ r.id := by
  obtain ⟨hxL, hxk⟩ := hrun.mem_of_mem_accepted hx
  exact hrun.fresh hstep hxL hxk

end Step

/-- The reverse index names every accepted Requirement, retracted or not. -/
theorem Replays.requirementIndex (h : Replays P rules L s) (id request : RecordId) (key : String) :
    s.requirementIndex[id]? = some (request, key) ↔
      ∃ x ∈ P.accepted L, x.id = id ∧ P.RequirementUnder x request key := by
  induction h with
  | nil => simp [State.empty, Platform.accepted]
  | @snoc L s s' r v hrun hstep ih =>
    rcases hrun.step_cases hstep with ⟨hacc, -, rfl⟩ | ⟨hacc, hc, t, hf, rfl⟩
    · rw [hacc]
      exact ih
    · rw [checkRecord_subject hstep.subject] at hc
      have hsplit : (∃ x ∈ P.accepted L ++ [r], x.id = id ∧ P.RequirementUnder x request key) ↔
          (∃ x ∈ P.accepted L, x.id = id ∧ P.RequirementUnder x request key) ∨
            (r.id = id ∧ P.RequirementUnder r request key) := by
        simp only [List.mem_append, List.mem_singleton, or_and_right, exists_or, exists_eq_left]
      rw [hacc, hsplit, ← ih]
      cases hf.keys with
      | @requirement hk d hd heq =>
        obtain ⟨request₀, hfirst, hcause, -⟩ := checkRequirement_passes hc hk hd
        have hunder : P.RequirementUnder r request key ↔ (request₀, d.key) = (request, key) := by
          simp [Platform.RequirementUnder, hk, hcause, hd, eq_comm]
        simp only [heq, State.foldRequirement, hfirst, hunder]
        by_cases hid : r.id = id
        · subst hid
          have hnone : ¬s.requirementIndex[r.id]? = some (request, key) := by
            rw [ih]
            rintro ⟨x, hx, hxid, -⟩
            exact ne_next_of_accepted hrun hstep hx hxid
          simp [hnone]
        · simp [ExtTreeMap.getElem?_insert, hid, State.accept]
      | retraction hk _ heq =>
        simp [heq, State.foldRetraction, State.accept, Platform.RequirementUnder, hk]
      | other hk _ hindex => simp [hindex, State.accept, Platform.RequirementUnder, hk.1]

section Step

variable {v : Record} (hrun : Replays P rules L s) (hstep : PairStep P rules L s r v s')

theorem holdsKey_concat {M : List Record} (hacc : P.accepted M = P.accepted L ++ [r])
    (request : RecordId) (key : String) :
    P.HoldsKey M request key ↔
      (∃ x ∈ P.accepted L, P.RequirementUnder x request key ∧ ¬P.RetractedIn M x.id) ∨
        (P.RequirementUnder r request key ∧ ¬P.RetractedIn M r.id) := by
  simp only [Platform.HoldsKey, hacc, List.mem_append, List.mem_singleton, or_and_right, exists_or,
    exists_eq_left]

theorem retractedIn_concat_other {M : List Record} (hacc : P.accepted M = P.accepted L ++ [r])
    (hk : r.kind ≠ .retraction) (id : RecordId) : P.RetractedIn M id ↔ P.RetractedIn L id := by
  simp [retractedIn_concat hacc, hk]

/-- A record that is no Requirement brings no new key. -/
theorem keysUnique_concat {M : List Record} (hacc : P.accepted M = P.accepted L ++ [r])
    (hret : ∀ id, P.RetractedIn L id → P.RetractedIn M id)
    (hnot : ∀ request key, ¬P.RequirementUnder r request key) (hunique : P.KeysUnique L) :
    P.KeysUnique M := by
  intro x hx y hy request key hxu hyu hxr hyr
  rw [hacc, List.mem_append, List.mem_singleton] at hx hy
  rcases hx with hx | rfl
  · rcases hy with hy | rfl
    · exact hunique x hx y hy request key hxu hyu (fun h => hxr (hret _ h)) (fun h => hyr (hret _ h))
    · exact absurd hyu (hnot _ _)
  · exact absurd hxu (hnot _ _)

include hrun hstep

/-- An accepted Requirement: its key was free, and is held now. -/
theorem keys_step_requirement {M : List Record} (hacc : P.accepted M = P.accepted L ++ [r])
    (hc : P.checkSubject rules (priorView (L ++ [r])) s r = none) (hk : r.kind = .requirement)
    {d : RequirementData} (hd : P.decode RequirementData r.data = some d)
    (hexact : P.KeysExact L s) (hunique : P.KeysUnique L) :
    P.KeysExact M ((s.accept r).foldRequirement r d) ∧ P.KeysUnique M := by
  obtain ⟨request₀, hfirst, hcause, hfree⟩ := checkRequirement_passes hc hk hd
  have hunder (request : RecordId) (key : String) :
      P.RequirementUnder r request key ↔ request₀ = request ∧ d.key = key := by
    simp [Platform.RequirementUnder, hk, hcause, hd, eq_comm]
  have hret := retractedIn_concat_other hacc (P := P) (L := L) (r := r) (by simp [hk])
  rw [hexact] at hfree
  constructor
  · intro request key
    rw [holdsKey_concat hacc, hunder]
    simp only [hret, not_retractedIn_next hrun hstep, not_false_eq_true, and_true]
    simp only [State.keysUnder, State.foldRequirement, hfirst, mem_keysUnder_insert]
    have hold : key ∈ (s.accept r).requirementKeys[request]?.getD ∅ ↔ P.HoldsKey L request key :=
      hexact request key
    rw [hold, or_comm]
    rfl
  · intro x hx y hy request key hxu hyu hxr hyr
    rw [hret] at hxr hyr
    rw [hacc, List.mem_append, List.mem_singleton] at hx hy
    have hclash {z : Record} (hz : z ∈ P.accepted L) (hzu : P.RequirementUnder z request key)
        (hzr : ¬P.RetractedIn L z.id) : ¬P.RequirementUnder r request key := by
      rintro hru
      obtain ⟨rfl, rfl⟩ := (hunder request key).mp hru
      exact hfree ⟨z, hz, hzu, hzr⟩
    rcases hx with hx | rfl <;> rcases hy with hy | rfl
    · exact hunique x hx y hy request key hxu hyu hxr hyr
    · exact absurd hyu (hclash hx hxu hxr)
    · exact absurd hxu (hclash hy hyu hyr)
    · rfl

omit hstep in
/-- An accepted Retraction that does not release a held key. -/
theorem keys_step_retraction {M : List Record} (hacc : P.accepted M = P.accepted L ++ [r])
    (hk : r.kind = .retraction) {d : RetractionData}
    (hd : P.decode RetractionData r.data = some d) (hno : ¬P.RetractsHeldAgain L r)
    (hexact : P.KeysExact L s) (hunique : P.KeysUnique L) :
    P.KeysExact M ((s.accept r).foldRetraction d) ∧ P.KeysUnique M := by
  have hret (id : RecordId) : P.RetractedIn M id ↔ P.RetractedIn L id ∨ d.targetId = id := by
    simp [retractedIn_concat hacc, hk, hd]
  have hnot (request : RecordId) (key : String) : ¬P.RequirementUnder r request key := by
    simp [Platform.RequirementUnder, hk]
  constructor
  · intro request key
    rw [holdsKey_concat hacc]
    simp only [hnot, false_and, or_false, hret, not_or]
    show key ∈ ((s.accept r).releaseKey d.targetId)[request]?.getD ∅ ↔ _
    rw [mem_keysUnder_releaseKey]
    show key ∈ s.keysUnder request ∧ s.requirementIndex[d.targetId]? ≠ some (request, key) ↔ _
    rw [hexact, ne_eq, hrun.requirementIndex]
    constructor
    · rintro ⟨⟨x, hx, hxu, hxr⟩, hnone⟩
      exact ⟨x, hx, hxu, hxr, fun heq => hnone ⟨x, hx, heq.symm, hxu⟩⟩
    · rintro ⟨x, hx, hxu, hxr, hne⟩
      refine ⟨⟨x, hx, hxu, hxr⟩, ?_⟩
      rintro ⟨q, hq, hqid, hqu⟩
      -- the target held this key too: by uniqueness it was retracted before
      by_cases hqr : P.RetractedIn L q.id
      · exact hno ⟨hk, d, hd, hqid ▸ hqr, q, hq, hqid, request, key, hqu, x, hx, hxu, hxr⟩
      · obtain rfl := hunique x hx q hq request key hxu hqu hxr hqr
        exact hne hqid.symm
  · exact keysUnique_concat hacc (fun id h => (hret id).mpr (.inl h)) hnot hunique

/-- One round keeps the keys, unless it releases a held one. -/
theorem keys_step (hno : r ∈ P.accepted (L ++ [r, v]) → ¬P.RetractsHeldAgain L r)
    (hexact : P.KeysExact L s) (hunique : P.KeysUnique L) :
    P.KeysExact (L ++ [r, v]) s' ∧ P.KeysUnique (L ++ [r, v]) := by
  rcases hrun.step_cases hstep with ⟨hacc, -, rfl⟩ | ⟨hacc, hc, t, hf, rfl⟩
  · refine ⟨?_, ?_⟩
    · simpa only [Platform.KeysExact, Platform.HoldsKey, Platform.RetractedIn, State.keysUnder,
        hacc] using hexact
    · simpa only [Platform.KeysUnique, Platform.RetractedIn, hacc] using hunique
  · rw [checkRecord_subject hstep.subject] at hc
    cases hf.keys with
    | requirement hk hd heq =>
      subst heq
      exact keys_step_requirement hrun hstep hacc hc hk hd hexact hunique
    | retraction hk hd heq =>
      subst heq
      exact keys_step_retraction hrun hacc hk hd (hno (by simp [hacc])) hexact hunique
    | other hk hkeys =>
      have hret := retractedIn_concat_other hacc (P := P) (L := L) (r := r) hk.2
      have hnot (request : RecordId) (key : String) : ¬P.RequirementUnder r request key :=
        fun hu => hk.1 hu.1
      constructor
      · intro request key
        rw [holdsKey_concat hacc]
        simp only [hnot, false_and, or_false, hret, State.keysUnder, hkeys]
        exact hexact request key
      · exact keysUnique_concat hacc (fun id h => (hret id).mpr h) hnot hunique

end Step

/-! ## Whole runs -/

/-- **The run lemma**: if no accepted record releases a held key, every even prefix has exactly the
held keys, each held once. -/
theorem Verified.keys_take (h : Verified P rules L s) (hno : ∀ i, ¬P.ReleasesHeldKey L i) {k : Nat}
    (hk : 2 * k ≤ L.length) {t : State} (ht : Verified P rules (L.take (2 * k)) t) :
    P.KeysExact (L.take (2 * k)) t ∧ P.KeysUnique (L.take (2 * k)) := by
  induction k generalizing t with
  | zero =>
    obtain rfl := ht.run.unique Replays.nil
    constructor
    · intro request key
      simp [State.empty, State.keysUnder, Platform.HoldsKey, Platform.accepted]
    · intro x hx
      simp [Platform.accepted] at hx
  | succ k ih =>
    have hlt : 2 * k + 1 < L.length := by omega
    obtain ⟨u, u', hu, hstep, hu'⟩ := h.pair_at hlt
    rw [take_two_more hlt] at ht ⊢
    obtain rfl := hu'.run.unique ht.run
    obtain ⟨hexact, hunique⟩ := ih (by omega) hu
    refine keys_step hu.run hstep (fun hacc hbad => ?_) hexact hunique
    refine hno (2 * k) ⟨by omega, ?_, hbad⟩
    exact accepted_mono hu'.run (take_two_more hlt ▸ List.take_prefix _ _) hacc

/-- A key released while it is held is missing from the state afterwards. -/
theorem Verified.not_keysExact_of_releases (h : Verified P rules L s) {i : Nat}
    (hbad : P.ReleasesHeldKey L i) :
    ∃ k t, 2 * k ≤ L.length ∧ Verified P rules (L.take (2 * k)) t ∧
      ¬P.KeysExact (L.take (2 * k)) t := by
  obtain ⟨hi, ha, hk, d, hd, hret, q, hq, hqid, request, key, hqu, x, hx, hxu, hxr⟩ := hbad
  obtain ⟨k, hlt, t, u, rfl, ht, -, hf, hafter, hacc⟩ := h.accepted_round hi ha
  refine ⟨k + 1, _, by omega, hafter, fun hexact => ?_⟩
  have hheld : P.HoldsKey (L.take (2 * (k + 1))) request key := by
    rw [holdsKey_concat hacc]
    refine .inl ⟨x, hx, hxu, ?_⟩
    rw [retractedIn_concat hacc]
    rintro (hr | ⟨-, d', hd', hid⟩)
    · exact hxr hr
    · rw [hd] at hd'
      cases hd'
      exact hxr (hid ▸ hret)
  rw [← hexact] at hheld
  cases hf.keys with
  | retraction _ hd' heq =>
    rw [hd] at hd'
    cases hd'
    subst heq
    have := (mem_keysUnder_releaseKey.mp hheld).2
    exact this ((ht.run.requirementIndex _ _ _).mpr ⟨q, hq, hqid, hqu⟩)
  | requirement hk' => simp [hk] at hk'
  | other hk' => exact hk'.2 hk

/-- **When requirement keys are unique.** In an accepted log, keys are unique and the state of every
even prefix has exactly the held ones, if and only if no accepted record retracts an already
retracted Requirement whose key is held again. -/
theorem keysProperty_iff (h : P.Accepts rules L) :
    P.KeysProperty L ↔ ∀ i, ¬P.ReleasesHeldKey L i := by
  obtain ⟨s, hv⟩ := accepts_iff.mp h
  constructor
  · intro hprop i hbad
    obtain ⟨k, t, hk, ht, hnot⟩ := hv.not_keysExact_of_releases hbad
    exact hnot (hprop.2 k hk t ht.run.build)
  · intro hno
    refine ⟨?_, fun k hk t hbuild => ?_⟩
    · obtain ⟨n, hn⟩ := hv.run.even
      have htake : L.take (2 * n) = L := List.take_of_length_le (by omega)
      have := (hv.keys_take hno (k := n) (by omega) (by rwa [htake])).2
      rwa [htake] at this
    · obtain ⟨u, hu⟩ := hv.take hk
      obtain rfl : u = t := Option.some.inj (hu.run.build.symm.trans hbuild)
      exact (hv.keys_take hno hk hu).1

/-! ## A key held twice -/

/-- A Requirement with the key `k` under the sample request. -/
def sampleRequirement (id : RecordId) (time : Time) (description : String) : Record :=
  sampleSubject id time byUser .requirement schemaRequirement
    (payload (⟨"k", description, true, none, .userAuthored⟩ : RequirementData))
    [⟨.cause, sampleRequest.id⟩]

def firstRequirement : Record :=
  sampleRequirement 0xd1e86c2be9d4db81f7c0379ec1a4225fc5a06bbb784232bb0d268e90100a4fb4 3 "first"

def secondRequirement : Record :=
  sampleRequirement 0x03281bd7c7ecf46f862306aa29196b1544858b8ba44b2ed18ce7519b9cf1f745 7 "second"

def thirdRequirement : Record :=
  sampleRequirement 0x3a0fc631a2e414952367d1ccbee5842c6377bb133dfdfdccc35773e255d044ff 11 "third"

/-- A Retraction of the first Requirement. -/
def sampleRetraction (id : RecordId) (time : Time) : Record :=
  sampleSubject id time byUser .retraction schemaRetraction
    (payload (⟨firstRequirement.id, ""⟩ : RetractionData)) [⟨.cause, firstRequirement.id⟩]

def firstRetraction : Record :=
  sampleRetraction 0xd6570cfa0f09be27c3bbcb074bb90a6487a48e6763cef60bc22b3ebefbb3923b 5

def secondRetraction : Record :=
  sampleRetraction 0x98a5684e1f6218feb044aa9fd121081aeabf248dd913e0fa2696dbdc20d6a97a 9

/-- The first Requirement is retracted, the second takes its key, the first is retracted again, and
the third takes the key as well. -/
def requirementLog : List Record :=
  sampleRound ++
  [firstRequirement,
    acceptance 0xf4abb185b475369db4a37591d8db3f59ac5b8743f267504cc2bd28cd75d866c3 firstRequirement,
    firstRetraction,
    acceptance 0xe566cee76b041ef31b90b61c071c220e885bf6c08297da880e75d77dbb9eb8c6 firstRetraction,
    secondRequirement,
    acceptance 0x737ba5de340da93cdee8d1a57ef41d262bf0cebe41dee87766da3d582f1edfc3 secondRequirement,
    secondRetraction,
    acceptance 0x466d0a8450bebb372b85741f706c5719c9e7cffbaf805228b77a1a03bb3b0128 secondRetraction,
    thirdRequirement,
    acceptance 0x2f9ee6a1e1b398a69054df4ded78c4bf39fe89203f1df043ebf8ebc91b07a02e thirdRequirement]

def requirementHistory : reference.AcceptedLog sampleRules where
  val := requirementLog
  property := Platform.Accepts.extend (m := 2) sampleRound_accepts (by decide) (by decide +kernel)

theorem requirementLog_accepts : reference.Accepts sampleRules requirementLog :=
  requirementHistory.property

theorem accepted_requirementLog : reference.accepted requirementLog =
    [sampleRequest, firstRequirement, firstRetraction, secondRequirement, secondRetraction,
      thirdRequirement] := by decide +kernel

theorem decode_sampleRetraction (id : RecordId) (time : Time) :
    reference.decode RetractionData (sampleRetraction id time).data =
      some ⟨firstRequirement.id, ""⟩ := by
  simp only [sampleRetraction, sampleSubject]
  decide +kernel

/-- The two Retractions in the log are of the first Requirement. -/
theorem retractedIn_requirementLog {id : RecordId}
    (h : reference.RetractedIn requirementLog id) : id = firstRequirement.id := by
  obtain ⟨a, ha, hk, d, hd, rfl⟩ := h
  rw [accepted_requirementLog] at ha
  simp only [List.mem_cons, List.not_mem_nil, or_false] at ha
  rcases ha with rfl | rfl | rfl | rfl | rfl | rfl
  case inr.inr.inl | inr.inr.inr.inr.inl =>
    simp only [firstRetraction, secondRetraction, decode_sampleRetraction, Option.some.injEq] at hd
    rw [← hd]
  all_goals cases hk

/-- **Keys are not unique**: the second and the third Requirement hold one key. -/
theorem requirementLog_keys : reference.Accepts sampleRules requirementLog ∧
    ¬reference.KeysProperty requirementLog := by
  refine ⟨requirementLog_accepts, fun h => ?_⟩
  have hunder {x : Record} (hk : x.kind = .requirement)
      (href : ⟨.cause, sampleRequest.id⟩ ∈ x.refs)
      (hd : (reference.decode RequirementData x.data).map RequirementData.key = some "k") :
      reference.RequirementUnder x sampleRequest.id "k" := by
    obtain ⟨d, hd, hkey⟩ := Option.map_eq_some_iff.mp hd
    exact ⟨hk, href, d, hd, hkey⟩
  have hsame : secondRequirement = thirdRequirement := by
    refine h.1 _ ?_ _ ?_ sampleRequest.id "k" (hunder rfl (by decide) (by decide +kernel))
      (hunder rfl (by decide) (by decide +kernel))
      (fun hr => absurd (retractedIn_requirementLog hr) (by decide))
      (fun hr => absurd (retractedIn_requirementLog hr) (by decide))
    · simp [accepted_requirementLog]
    · simp [accepted_requirementLog]
  exact absurd (congrArg Record.time hsame) (by decide)

theorem requirementLog_releases : reference.Accepts sampleRules requirementLog ∧
    (reference.KeysProperty requirementLog ↔
      ∀ i, ¬reference.ReleasesHeldKey requirementLog i) :=
  ⟨requirementLog_accepts, keysProperty_iff requirementLog_accepts⟩

end Bellbook
