import Bellbook.Verify.Lineage
import Bellbook.Verify.Registers
import Bellbook.Verify.Requirements

/-!
# Who may retract

A Retraction takes an accepted record out of use and taints what rests on it, so it is bound to ownership: it
is by the author of its target or by a configured administrator. `Disowned` says this of a record of the log.
Every mark the state keeps goes back to a disowned record (`retraction_owned`).
-/

namespace Bellbook

open Std Relation

namespace Platform

variable (P : Platform)

/-- An accepted Retraction of the record by its author or by an administrator. -/
structure DisownedBy (rules : VerifierRules) (L : List Record) (y r : Record) : Prop where
  accepted : r ∈ P.accepted L
  retracts : P.Retracts r y.id
  later : y.time.toNat < r.time.toNat
  owner : r.author.id = y.author.id ∨ r.author.id ∈ rules.adminRetractionActors
  retractable : y.kind ≠ .verdict ∧ y.kind ≠ .retraction

def Disowned (rules : VerifierRules) (L : List Record) (y : Record) : Prop := ∃ r, P.DisownedBy rules L y r

end Platform

variable {P : Platform} {rules : VerifierRules} {L : List Record} {s : State}

/-- **A retracted record was disowned**, and is an accepted one. -/
theorem Verified.disowned (h : Verified P rules L s) (hs : P.HashSound L) {id : RecordId}
    (hret : P.RetractedIn L id) : ∃ y ∈ P.accepted L, y.id = id ∧ P.Disowned rules L y := by
  obtain ⟨r, hr, hk, d, hd, rfl⟩ := hret
  obtain ⟨i, hi, rfl⟩ := List.mem_iff_getElem.mp (mem_of_mem_accepted hr)
  obtain ⟨t, ht, hcheck⟩ := h.accepted_at hs hi hr
  have hkind := (checkSubject_passes hcheck).kind
  simp only [Platform.checkKindSpecific, hk, Platform.checkRetraction, hd, orReject_eq_none,
    orElse_none_iff, rejectIf_eq_none, not_not, not_or, not_and_or, Option.some.injEq,
    exists_eq_left'] at hkind
  obtain ⟨-, y, hfind, hacc, hretractable, howner⟩ := hkind
  obtain ⟨-, hyid⟩ := find_mem hfind
  obtain ⟨hy, -, hlt⟩ := h.found_before hs hi ht hfind (by rwa [hyid])
  exact ⟨y, hy, hyid, L[i], hr, ⟨hk, d, hd, hyid.symm⟩, hlt, howner, hretractable⟩

theorem Platform.DisownedBy.retractedIn {y r : Record} (h : P.DisownedBy rules L y r) :
    P.RetractedIn L y.id := by
  obtain ⟨hk, d, hd, hid⟩ := h.retracts
  exact ⟨r, h.accepted, hk, d, hd, hid⟩

/-- **Every mark goes back to an owner.** In the state of an accepted log a retracted record was retracted, after
it was accepted, by its own author or by an administrator, and holds no authority any more. A record is retracted
or tainted exactly if it is, or rests through accepted records on, one that its own author or an administrator
retracted. -/
theorem retraction_owned (hs : P.HashSound L) (h : P.Accepts rules L) :
    ∃ s, P.buildStateUnchecked L = some s ∧
      (∀ id ∈ s.retractedRecords,
        (∃ y ∈ P.accepted L, y.id = id ∧ P.Disowned rules L y) ∧ s.HoldsNoAuthority id) ∧
      ∀ x ∈ P.accepted L, (x.id ∈ s.retractedRecords ∨ x.id ∈ s.taintedRecords) ↔
        ∃ y ∈ P.accepted L, ReflTransGen (P.Depends L) x y ∧ P.Disowned rules L y := by
  obtain ⟨s, hv⟩ := accepts_iff.mp h
  refine ⟨s, hv.run.build, fun id hid => ⟨hv.disowned hs ((hv.run.retracted id).mp hid), ?_⟩, ?_⟩
  · have hform := hv.authorityForm
    constructor
    · intro key hslot
      obtain ⟨-, -, -, -, hno⟩ := (hform.capability key id).mp hslot
      exact hno hid
    · intro key hslot
      obtain ⟨-, -, -, -, hno⟩ := (hform.byClass key id).mp hslot
      exact hno hid
    · intro hash hslot
      obtain ⟨-, -, -, -, hno, -⟩ := (hform.exact hash id).mp hslot
      exact hno hid
  · intro x hx
    rw [hv.run.retracted, hv.run.taintExact.tainted]
    constructor
    · rintro (hret | ⟨a, ha, hid, y, hpath, hret⟩)
      · obtain ⟨y, hy, hid, hdis⟩ := hv.disowned hs hret
        obtain rfl := hv.run.eq_of_accepted_id hy hx hid
        exact ⟨y, hy, .refl, hdis⟩
      · obtain rfl := hv.run.eq_of_accepted_id ha hx hid
        obtain ⟨z, hz, hzid, hdis⟩ := hv.disowned hs hret
        -- the end of the path is in the log under the same id
        obtain ⟨b, -, hby⟩ := TransGen.tail'_iff.mp hpath
        obtain rfl := hv.eq_of_id_eq hs (mem_of_mem_accepted hz) hby.2.1 hzid
        exact ⟨z, hz, hpath.to_reflTransGen, hdis⟩
    · rintro ⟨y, -, hpath, r, hdis⟩
      rcases reflTransGen_iff_eq_or_transGen.mp hpath with rfl | hpath
      · exact .inl hdis.retractedIn
      · exact .inr ⟨x, hx, rfl, y, hpath, hdis.retractedIn⟩

theorem requirementLog_hashSound : reference.HashSound requirementLog := by
  obtain ⟨s, hv⟩ := accepts_iff.mp requirementLog_accepts
  refine hashSound_of_nodup hv.ids ?_ (by decide +kernel)
  rw [map_schemaId]
  decide +kernel

/-- The first Requirement was disowned by its author. -/
theorem requirementLog_owned : ∃ s, reference.buildStateUnchecked requirementLog = some s ∧
    firstRequirement.id ∈ s.retractedRecords ∧ reference.Disowned sampleRules requirementLog firstRequirement := by
  obtain ⟨s, hbuild, hret, -⟩ := retraction_owned requirementLog_hashSound requirementLog_accepts
  obtain ⟨t, hv⟩ := accepts_iff.mp requirementLog_accepts
  obtain rfl : t = s := Option.some.inj (hv.run.build.symm.trans hbuild)
  have hmem : firstRequirement.id ∈ t.retractedRecords := by
    apply (hv.run.retracted _).mpr
    refine ⟨firstRetraction, ?_, rfl, _, decode_sampleRetraction _ _, rfl⟩
    rw [accepted_requirementLog]
    simp
  obtain ⟨⟨y, hy, hid, hdis⟩, -⟩ := hret _ hmem
  refine ⟨t, hbuild, hmem, ?_⟩
  have hfirst : firstRequirement ∈ reference.accepted requirementLog := by
    rw [accepted_requirementLog]
    simp
  rwa [← hv.run.eq_of_accepted_id hy hfirst hid]

end Bellbook
