import Bellbook.Verify.Frozen

/-!
# Ids bind content

What the ledger assumes of SHA-256, `HashSound`: it is injective on the byte strings hashed for a
log (its canonical id forms and the frozen schema names), and no record of the log mentions its own
id. Nothing is assumed of other byte strings.

* Under it the ids of an accepted log tell its records apart (`Verified.eq_of_id_eq`).
* A subject may be judged against the records before it instead of the index that already holds it
  (`Verified.checkRecord_prior`).
-/

namespace Bellbook

open Std

namespace Platform

variable (P : Platform)

/-- The byte strings hashed for a log: the frozen schema names and the canonical id forms. -/
def hashedBytes (L : List Record) : List Bytes :=
  allSchemas.map (fun name => utf8 name.toList) ++ L.filterMap P.canonicalIdForm

/-- No two of the byte strings have the same SHA-256. -/
def CollisionFree (strings : List Bytes) : Prop :=
  ∀ a ∈ strings, ∀ b ∈ strings, P.sha256 a = P.sha256 b → a = b

/-- SHA-256 behaves on the log: no two byte strings hashed for it collide, and no record's id is
among the ids the record mentions. -/
structure HashSound (L : List Record) : Prop where
  injOn : P.CollisionFree (P.hashedBytes L)
  noFixpoint : ∀ r ∈ L, P.computeId r = some r.id → r.id ∉ P.mentionedIds r

end Platform

variable {P : Platform} {rules : VerifierRules} {L : List Record} {s : State}

theorem mem_hashedBytes_of_form {r : Record} {bytes : Bytes} (hr : r ∈ L)
    (h : P.canonicalIdForm r = some bytes) : bytes ∈ P.hashedBytes L :=
  List.mem_append_right _ (List.mem_filterMap.mpr ⟨r, hr, h⟩)

/-- **Ids bind content**, where the canonical id forms do not collide. -/
theorem eq_of_id_eq_of_collisionFree {strings : List Bytes} (h : P.CollisionFree strings)
    {r r' : Record} (hr : ∀ form, P.canonicalIdForm r = some form → form ∈ strings)
    (hr' : ∀ form, P.canonicalIdForm r' = some form → form ∈ strings)
    (hid : P.computeId r = some r.id) (hid' : P.computeId r' = some r'.id) (heq : r.id = r'.id) :
    r = r' := by
  obtain ⟨form, hform, hsha⟩ := Option.map_eq_some_iff.mp hid
  obtain ⟨form', hform', hsha'⟩ := Option.map_eq_some_iff.mp hid'
  have : form = form' := h _ (hr _ hform) _ (hr' _ hform') (by rw [hsha, hsha', heq])
  subst this
  exact (sameContent_of_idForm_eq P hform hform').eq heq

namespace Platform.HashSound

theorem mono {M : List Record} (h : P.HashSound L) (hsub : M ⊆ L) : P.HashSound M := by
  have hbytes : P.hashedBytes M ⊆ P.hashedBytes L := by
    intro b hb
    rcases List.mem_append.mp hb with hb | hb
    · exact List.mem_append_left _ hb
    · obtain ⟨r, hr, hform⟩ := List.mem_filterMap.mp hb
      exact mem_hashedBytes_of_form (hsub hr) hform
  exact ⟨fun a ha b hb => h.injOn a (hbytes ha) b (hbytes hb),
    fun r hr => h.noFixpoint r (hsub hr)⟩

theorem left {M : List Record} (h : P.HashSound (L ++ M)) : P.HashSound L :=
  h.mono (List.subset_append_left L M)

theorem schemasDistinct (h : P.HashSound L) : P.SchemasDistinct := by
  intro a ha b hb hab
  have hmem {name : String} (hn : name ∈ allSchemas) : utf8 name.toList ∈ P.hashedBytes L :=
    List.mem_append_left _ (List.mem_map.mpr ⟨name, hn, rfl⟩)
  exact String.toList_inj.mp (utf8_inj (h.injOn _ (hmem ha) _ (hmem hb) hab))

theorem eq_of_id_eq (h : P.HashSound L) {r r' : Record} (hr : r ∈ L) (hr' : r' ∈ L)
    (hid : P.computeId r = some r.id) (hid' : P.computeId r' = some r'.id) (heq : r.id = r'.id) :
    r = r' :=
  eq_of_id_eq_of_collisionFree h.injOn (fun _ => mem_hashedBytes_of_form hr)
    (fun _ => mem_hashedBytes_of_form hr') hid hid' heq

end Platform.HashSound

/-! ## Lookups in an accepted log -/

theorem find_mem {id : RecordId} {x : Record} (h : (priorView L).find id = some x) :
    x ∈ L ∧ x.id = id :=
  ⟨List.mem_of_find?_eq_some h, by simpa using List.find?_some h⟩

theorem find_isSome {x : Record} (h : x ∈ L) : ∃ y, (priorView L).find x.id = some y := by
  rw [← Option.isSome_iff_exists]
  simpa [priorView] using ⟨x, h, rfl⟩

/-- A record with an id of its own is found under it. -/
theorem find_self {x : Record} (hx : x ∈ L) (h : ∀ y ∈ L, y.id = x.id → y = x) :
    (priorView L).find x.id = some x := by
  obtain ⟨y, hy⟩ := find_isSome hx
  obtain ⟨hmem, hid⟩ := find_mem hy
  rw [hy, h y hmem hid]

/-- A lookup that succeeds in a prefix is not changed by what follows. -/
theorem find_append {M : List Record} {id : RecordId} {x : Record} (h : x ∈ L) (hid : x.id = id) :
    (priorView (L ++ M)).find id = (priorView L).find id := by
  obtain ⟨y, hy⟩ := find_isSome h
  rw [hid] at hy
  simp only [priorView] at hy ⊢
  rw [List.find?_append, hy, Option.some_or]

/-- A lookup of another id is not changed by the next record. -/
theorem find_concat_ne {r : Record} {id : RecordId} (h : r.id ≠ id) :
    (priorView (L ++ [r])).find id = (priorView L).find id := by
  simp [priorView, List.find?_append, h]

namespace Verified

theorem eq_of_id_eq (h : Verified P rules L s) (hs : P.HashSound L) {r r' : Record} (hr : r ∈ L)
    (hr' : r' ∈ L) (heq : r.id = r'.id) : r = r' :=
  hs.eq_of_id_eq hr hr' (h.ids r hr) (h.ids r' hr') heq

/-- The prior view finds exactly the record with the id. -/
theorem find_eq_some (h : Verified P rules L s) (hs : P.HashSound L) {id : RecordId} {x : Record} :
    (priorView L).find id = some x ↔ x ∈ L ∧ x.id = id := by
  refine ⟨find_mem, fun ⟨hx, hid⟩ => ?_⟩
  rw [← hid]
  exact find_self hx fun y hy heq => h.eq_of_id_eq hs hy hx heq

/-- An accepted id names the accepted record. -/
theorem accepted_of_mem (h : Verified P rules L s) (hs : P.HashSound L) {x : Record} (hx : x ∈ L)
    (hacc : x.id ∈ s.acceptedRecords) : x ∈ P.accepted L := by
  obtain ⟨a, ha, hid⟩ := h.run.mem_acceptedRecords.mp hacc
  obtain ⟨hmem, -⟩ := h.run.mem_of_mem_accepted ha
  rwa [← h.eq_of_id_eq hs hmem hx hid]

end Verified

/-! ## Authority is held by accepted records -/

section Maps

variable {κ : Type} [Ord κ] [TransOrd κ] {m : ExtTreeMap κ RecordId} {k k' : κ} {id v : RecordId}

theorem of_getElem?_erase (h : (m.erase k)[k']? = some id) : m[k']? = some id := by
  rw [ExtTreeMap.getElem?_erase] at h
  split at h
  · cases h
  · exact h

theorem of_getElem?_insert [LawfulEqOrd κ] (h : (m.insert k v)[k']? = some id) :
    (id = v ∧ k = k') ∨ (k ≠ k' ∧ m[k']? = some id) := by
  rw [ExtTreeMap.getElem?_insert] at h
  split at h
  · next heq => exact .inl ⟨(Option.some.inj h).symm, LawfulEqOrd.compare_eq_iff_eq.mp heq⟩
  · next hne => exact .inr ⟨fun heq => hne (LawfulEqOrd.compare_eq_iff_eq.mpr heq), h⟩

theorem of_getElem?_insertOpt [LawfulEqOrd κ] {key : Option κ}
    (h : (insertOpt m key v)[k']? = some id) : (id = v ∧ key = some k') ∨ m[k']? = some id := by
  cases key with
  | none => exact .inr h
  | some k => exact (of_getElem?_insert h).imp (fun ⟨hv, hk⟩ => ⟨hv, congrArg some hk⟩) And.right

theorem of_getElem?_releaseSlot {index : IdMap κ} {target : RecordId}
    (h : (releaseSlot index m target)[k']? = some id) : m[k']? = some id := by
  unfold releaseSlot at h
  split at h
  · split at h
    · exact of_getElem?_erase h
    · exact h
  · exact h

end Maps

theorem of_getElem?_spendApproval {r : Record} {hash hash' : Hash256} {id : RecordId}
    (h : (s.spendApproval r hash)[hash']? = some id) : s.validApprovals[hash']? = some id := by
  unfold State.spendApproval at h
  split at h
  · exact of_getElem?_erase h
  · exact h

/-- One fold gives authority to nothing but the folded record. -/
theorem Folded.holdsAuthority {s' : State} {r : Record} (h : Folded P s r s') {id : RecordId}
    (hid : s'.HoldsAuthority id) : id = r.id ∨ s.HoldsAuthority id := by
  cases h with
  | request | result | summary | usage | plan | inert => exact .inr hid
  | @refusal _ data =>
    obtain ⟨_, _, _, _, heq⟩ := s.foldRefusal_eq data
    rw [heq] at hid
    exact .inr hid
  | @response _ data =>
    obtain ⟨_, _, _, heq⟩ := s.foldResponse_eq data
    rw [heq] at hid
    exact .inr hid
  | @requirement _ data =>
    obtain ⟨_, _, heq⟩ := s.foldRequirement_eq r data
    rw [heq] at hid
    exact .inr hid
  | action | selection =>
    rcases hid with hid | ⟨hash, hid⟩ | hid
    · exact .inr (.inl hid)
    · exact .inr (.inr (.inl ⟨hash, of_getElem?_spendApproval hid⟩))
    · exact .inr (.inr (.inr hid))
  | capability =>
    rcases hid with ⟨key, hid⟩ | hid
    · exact (of_getElem?_insert hid).imp And.left fun h => .inl ⟨key, h.2⟩
    · exact .inr (.inr hid)
  | approval =>
    rcases hid with hid | ⟨hash, hid⟩ | ⟨key, hid⟩
    · exact .inr (.inl hid)
    · exact (of_getElem?_insertOpt hid).imp And.left fun h => .inr (.inl ⟨hash, h⟩)
    · exact (of_getElem?_insertOpt hid).imp And.left fun h => .inr (.inr ⟨key, h⟩)
  | retraction =>
    rcases hid with ⟨key, hid⟩ | ⟨hash, hid⟩ | ⟨key, hid⟩
    · exact .inr (.inl ⟨key, of_getElem?_releaseSlot hid⟩)
    · exact .inr (.inr (.inl ⟨hash, of_getElem?_releaseSlot hid⟩))
    · exact .inr (.inr (.inr ⟨key, of_getElem?_releaseSlot hid⟩))

theorem checkRecord_subject {prior : Prior} {r : Record} (hk : r.kind ≠ .verdict) :
    P.checkRecord rules prior s r = P.checkSubject rules prior s r := by
  rw [Platform.checkRecord, if_neg hk]

section Fold

variable (hfrozen : P.Frozen rules) (hdist : P.SchemasDistinct)
include hfrozen hdist

/-- A subject that passes its checks can be folded, in any state and with any verdict. -/
theorem applyRecord_of_checked {prior : Prior} {r : Record} (hk : r.kind ≠ .verdict)
    (h : P.checkRecord rules prior s r = none) (t : State) (d : VerdictData) :
    ∃ t', P.applyRecord t r d = some t' := by
  unfold Platform.applyRecord
  cases d.result with
  | reject => exact ⟨t, rfl⟩
  | accept =>
    rw [checkRecord_subject hk] at h
    exact applyAccepted_total hfrozen hdist h t

/-- A subject whose stored verdict is the recomputed one can be folded with it. -/
theorem applyRecord_of_recomputed {prior : Prior} {r : Record} {stored : VerdictData}
    (hk : r.kind ≠ .verdict) (h : verdictOf (P.checkRecord rules prior s r) = stored) :
    ∃ t, P.applyRecord s r stored = some t := by
  cases hc : P.checkRecord rules prior s r with
  | none => exact applyRecord_of_checked hfrozen hdist hk hc s stored
  | some reason =>
    rw [hc] at h
    subst h
    exact ⟨s, rfl⟩

end Fold

namespace Replays

theorem authority_accepted (h : Replays P rules L s) {id : RecordId} (hid : s.HoldsAuthority id) :
    id ∈ s.acceptedRecords := by
  induction h with
  | nil => simp [State.HoldsAuthority, State.empty] at hid
  | @snoc L s s' r v hrun hstep ih =>
    rcases hrun.step_cases hstep with ⟨-, -, rfl⟩ | ⟨-, -, t, hf, rfl⟩
    · exact ih hid
    · show id ∈ t.acceptedRecords
      rw [hf.acceptedRecords]
      refine Worklist.mem_insert_iff.mpr ((hf.holdsAuthority hid).imp_right fun h => ih h)

/-- The action an accepted Result answers is in the log. -/
theorem result_action (h : Replays P rules L s) {a : Record} (ha : a ∈ P.accepted L)
    (hk : a.kind = .result) {d : ResultData} (hd : P.decode ResultData a.data = some d) :
    ∃ x ∈ L, x.id = d.actionId := by
  induction h with
  | nil => simp [Platform.accepted] at ha
  | @snoc L s s' r v hrun hstep ih =>
    have hold (ha : a ∈ P.accepted L) : ∃ x ∈ L ++ [r, v], x.id = d.actionId := by
      obtain ⟨x, hx, hid⟩ := ih ha
      exact ⟨x, List.mem_append_left _ hx, hid⟩
    rcases hrun.step_cases hstep with ⟨hacc, -⟩ | ⟨hacc, hc, -⟩
    · exact hold (hacc ▸ ha)
    · rw [hacc, List.mem_append, List.mem_singleton] at ha
      rcases ha with ha | rfl
      · exact hold ha
      · rw [checkRecord_subject hstep.subject] at hc
        have hkind := (checkSubject_passes hc).kind
        simp only [Platform.checkKindSpecific, hk, Platform.checkResult, hd, orReject_eq_none,
          orElse_none_iff, Option.some.injEq, exists_eq_left'] at hkind
        obtain ⟨-, -, x, hfind, -⟩ := hkind
        obtain ⟨hmem, hid⟩ := find_mem hfind
        refine ⟨x, ?_, hid⟩
        rw [List.mem_append, List.mem_singleton] at hmem
        simpa using hmem.elim .inl fun h => .inr (.inl h)

end Replays

/-- **A subject is judged against the records before it**: that the index already holds the subject
itself changes no verdict. -/
theorem Verified.checkRecord_prior (h : Verified P rules L s) {r : Record}
    (hid : P.computeId r = some r.id) (hk : r.kind ≠ .verdict) (hs : P.HashSound (L ++ [r])) :
    P.checkRecord rules (priorView (L ++ [r])) s r = P.checkRecord rules (priorView L) s r := by
  rw [checkRecord_subject hk, checkRecord_subject hk]
  symm
  have hlog {x : Record} {id : RecordId} (hx : x ∈ L) (hxid : x.id = id) :
      (priorView L).find id = (priorView (L ++ [r])).find id := (find_append hx hxid).symm
  refine checkSubject_congr ⟨fun id hmem => ?_, fun id hauth => ?_, fun id t hfind hkind hacc d hd => ?_⟩
  · refine (find_concat_ne fun heq => ?_).symm
    exact hs.noFixpoint r (by simp) hid (heq ▸ hmem)
  · obtain ⟨a, ha, haid⟩ := h.run.mem_acceptedRecords.mp (h.run.authority_accepted hauth)
    exact hlog (h.run.mem_of_mem_accepted ha).1 haid
  · obtain ⟨hmem, rfl⟩ := find_mem hfind
    obtain ⟨x, hx, hxid⟩ := h.run.result_action (h.accepted_of_mem hs.left hmem hacc) hkind hd
    exact hlog hx hxid

theorem hashSound_take_concat (hs : P.HashSound L) {n : Nat} (h : n < L.length) :
    P.HashSound (L.take n ++ [L[n]]) := by
  rw [← List.take_succ_eq_append_getElem h]
  exact hs.mono (List.take_subset _ _)

/-- **What an accepted record has passed**: the checks of a subject, against the records before it
and the state they lead to. -/
theorem Verified.accepted_at (h : Verified P rules L s) (hs : P.HashSound L) {i : Nat}
    (hi : i < L.length) (ha : L[i] ∈ P.accepted L) :
    ∃ t, Verified P rules (L.take i) t ∧
      P.checkSubject rules (priorView (L.take i)) t L[i] = none := by
  obtain ⟨k, hk, t, u, rfl, ht, hc, -⟩ := h.accepted_round hi ha
  have hkind := (h.run.mem_of_mem_accepted ha).2
  refine ⟨t, ht, ?_⟩
  rw [← checkRecord_subject hkind, ← hc, ht.checkRecord_prior (h.ids _ (List.getElem_mem _)) hkind
    (hashSound_take_concat hs hi)]

/-! ## Induction over the accepted records -/

/-- **What every accepted record keeps, a log keeps.** The property may depend on the accepted
records and on the state, but not on its `applied_up_to`; each record comes with the checks it
passed. -/
theorem Verified.accepted_induction {Inv : List Record → State → Prop}
    (time : ∀ {A : List Record} {s : State} (t : Time), Inv A s → Inv A { s with appliedUpTo := t })
    (nil : Inv [] State.empty)
    (step : ∀ {L : List Record} {s : State} {r v : Record} {s' : State}, Verified P rules L s →
      PairStep P rules L s r v { s' with appliedUpTo := v.time } →
      P.checkSubject rules (priorView (L ++ [r])) s r = none → Folded P (s.accept r) r s' →
      Inv (P.accepted L) s → Inv (P.accepted L ++ [r]) s')
    (h : Verified P rules L s) : Inv (P.accepted L) s := by
  induction h using Verified.rec_snoc with
  | nil => exact nil
  | @snoc L s r v s' hL hall hstep ih =>
    rcases hL.run.step_cases hstep with ⟨hacc, -, rfl⟩ | ⟨hacc, hc, t, hf, rfl⟩
    · rw [hacc]
      exact time v.time ih
    · rw [hacc]
      rw [checkRecord_subject hstep.subject] at hc
      apply time v.time
      exact step hL hstep hc hf ih

end Bellbook
