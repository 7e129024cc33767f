import Bellbook.Verify.Permanence
import Bellbook.Verify.Soundness

/-!
# What moves standing

Standing is recomputed from scratch at the end of every log. Over the extensions of an accepted log
only two events move it: a Retraction can compromise a Candidate or unsettle a Selection, and a
Selection with a Replace ref can restore a Candidate.

* The refs of an accepted record, and the parent of a Candidate, lead to earlier records, so one more
  record changes nothing below an older one (`ReplayEnd.Within`).
* `SoundCandidate.extend` and `SoundCandidate.restrict` compare the recursion over a log and over an
  extension of it.
-/

namespace Bellbook

open Std

/-! ## Two replay ends -/

/-- What is accepted in the one replay is accepted in the other, and has its targets where it had
them. -/
structure ReplayEnd.Within (P : Platform) (E E' : ReplayEnd) : Prop where
  accepted : ∀ x ∈ E.accepted, x ∈ E'.accepted
  refs : ∀ a ∈ E.accepted, ∀ ref ∈ a.refs, ∀ t ∈ E'.accepted, t.id = ref.target → t ∈ E.accepted
  parents : ∀ c d, E.Proposes P c d → d.basis = .continuation →
    ∀ p ∈ E'.accepted, d.parent = some p.id → p ∈ E.accepted

namespace ReplayEnd

variable {P : Platform} {E E' : ReplayEnd}

theorem Within.selects (h : Within P E E') {x : Record} (hx : E.Selects x) : E'.Selects x :=
  ⟨h.accepted x hx.1, hx.2⟩

theorem Within.proposes (h : Within P E E') {c : Record} {d : CandidateData} (hc : E.Proposes P c d) :
    E'.Proposes P c d := ⟨h.accepted c hc.1, hc.2⟩

theorem Within.target (h : Within P E E') {a t : Record} (ha : a ∈ E.accepted) (ht : t ∈ E'.accepted)
    {type : RefType} (hid : t.id ∈ refTargets type a.refs) : t ∈ E.accepted := by
  obtain ⟨ref, href, -, htarget⟩ := mem_refTargets.mp hid
  exact h.refs a ha ref href t ht htarget.symm

/-- One hop of a Replace chain from an older Selection. -/
theorem Within.replaces_iff (h : Within P E E') {x y : Record} (hx : x ∈ E.accepted) :
    E'.Replaces x y ↔ E.Replaces x y := by
  constructor
  · rintro ⟨hsx, hsy, hrep⟩
    have hy : y ∈ E.accepted := h.target hx hsy.1 (mem_refTargets_of_findReplaceRef hrep)
    exact ⟨⟨hx, hsx.2⟩, ⟨hy, hsy.2⟩, hrep⟩
  · rintro ⟨hsx, hsy, hrep⟩
    exact ⟨h.selects hsx, h.selects hsy, hrep⟩

/-- A Replace chain from an older Selection. -/
theorem Within.chain_iff (h : Within P E E') {x y : Record} (hx : x ∈ E.accepted) :
    Relation.TransGen E'.Replaces x y ↔ Relation.TransGen E.Replaces x y := by
  constructor
  · intro hchain
    induction hchain using Relation.TransGen.head_induction_on with
    | single hhop => exact .single ((h.replaces_iff hx).mp hhop)
    | head hhop _ ih =>
      have hhop' := (h.replaces_iff hx).mp hhop
      exact .head hhop' (ih hhop'.2.1.1)
  · intro hchain
    induction hchain using Relation.TransGen.head_induction_on with
    | single hhop => exact .single ((h.replaces_iff hx).mpr hhop)
    | head hhop _ ih => exact .head ((h.replaces_iff hx).mpr hhop) (ih hhop.2.1.1)

/-- **Soundness is kept** where no older record is marked. -/
theorem SoundCandidate.extend (h : Within P E E')
    (hret : ∀ x ∈ E.accepted, x.id ∈ E'.retracted → x.id ∈ E.retracted)
    (htaint : ∀ x ∈ E.accepted, x.id ∈ E'.tainted → x.id ∈ E.tainted) {c : Record}
    (hc : E.SoundCandidate P c) : E'.SoundCandidate P c := by
  have hsel {x : Record} (hx : E.SoundSelection x) : E'.SoundSelection x :=
    ⟨h.selects hx.1, fun hmark => hx.2 (hmark.imp (hret x hx.1.1) (htaint x hx.1.1))⟩
  induction hc with
  | root hc hr hb => exact .root (h.proposes hc) (fun hmark => hr (hret _ hc.1 hmark)) hb
  | continuation hc hr hb ha hcause hp hparent hanchor _ ih =>
    refine .continuation (h.proposes hc) (fun hmark => hr (hret _ hc.1 hmark)) hb (h.selects ha) hcause
      (h.proposes hp) hparent ?_ ih
    rcases hanchor with hsound | ⟨x, ⟨hx, hchain⟩, hrest⟩
    · exact .inl (hsel hsound)
    · exact .inr ⟨x, ⟨hsel hx, (h.chain_iff hx.1.1).mpr hchain⟩, hrest⟩
  | derivation hc hr hb hall ih =>
    refine .derivation (h.proposes hc) (fun hmark => hr (hret _ hc.1 hmark)) hb fun t dt ht hcause => ?_
    have hold : t ∈ E.accepted := h.target hc.1 ht.1 hcause
    exact ih t dt ⟨hold, ht.2⟩ hcause

/-- **Soundness is not gained** where marks stay and no newer Selection replaces. -/
theorem SoundCandidate.restrict (h : Within P E E') (hret : ∀ id ∈ E.retracted, id ∈ E'.retracted)
    (htaint : ∀ id ∈ E.tainted, id ∈ E'.tainted)
    (hnew : ∀ x ∈ E'.accepted, x.kind = .selection → findReplaceRef x.refs ≠ none → x ∈ E.accepted)
    {c : Record} (hc : E'.SoundCandidate P c) (hold : c ∈ E.accepted) : E.SoundCandidate P c := by
  have hsel {x : Record} (hx : E'.SoundSelection x) (hxold : x ∈ E.accepted) : E.SoundSelection x :=
    ⟨⟨hxold, hx.1.2⟩, fun hmark => hx.2 (hmark.imp (hret _) (htaint _))⟩
  induction hc with
  | root hc hr hb => exact .root ⟨hold, hc.2⟩ (fun hmark => hr (hret _ hmark)) hb
  | @continuation c anchor parent d dp hc hr hb ha hcause hp hparent hanchor _ ih =>
    have hcold : E.Proposes P c d := ⟨hold, hc.2⟩
    have haold : anchor ∈ E.accepted := h.target hold ha.1 (by rw [hcause]; exact List.mem_singleton.mpr rfl)
    have hpold : parent ∈ E.accepted := h.parents c d hcold hb parent hp.1 hparent
    refine .continuation hcold (fun hmark => hr (hret _ hmark)) hb ⟨haold, ha.2⟩ hcause ⟨hpold, hp.2⟩
      hparent ?_ (ih hpold)
    rcases hanchor with hsound | ⟨x, ⟨hx, hchain⟩, hrest⟩
    · exact .inl (hsel hsound haold)
    · -- a chain starts at a Selection with a Replace ref, which is an older one
      obtain ⟨y, hhop, -⟩ := Relation.TransGen.head'_iff.mp hchain
      have hxold : x ∈ E.accepted := hnew x hx.1.1 hx.1.2 (by rw [hhop.2.2]; simp)
      exact .inr ⟨x, ⟨hsel hx hxold, (h.chain_iff hxold).mp hchain⟩, hrest⟩
  | derivation hc hr hb _ ih =>
    refine .derivation ⟨hold, hc.2⟩ (fun hmark => hr (hret _ hmark)) hb fun t dt ht hcause => ?_
    exact ih t dt (h.proposes ht) hcause ht.1

end ReplayEnd

/-! ## Extensions of a log -/

variable {P : Platform} {rules : VerifierRules} {L M : List Record} {s s' : State} {r v : Record}

section Extension

variable (h : Verified P rules L s) (h' : Verified P rules (L ++ M) s') (hs : P.HashSound (L ++ M))
include h h' hs

omit hs in
/-- An older record that is accepted in the extension is accepted. -/
theorem Verified.accepted_of_mem_left {x : Record} (hx : x ∈ L) (hacc : x ∈ P.accepted (L ++ M)) :
    x ∈ P.accepted L := by
  have htake : (L ++ M).take L.length = L := List.take_left
  have hL : Verified P rules ((L ++ M).take L.length) s := by rwa [htake]
  have hmem := h'.accepted_take hL hacc (by rwa [htake])
  rwa [htake] at hmem

/-- The target of a ref of an older record is an older record. -/
theorem Verified.target_mem_left {a t : Record} (ha : a ∈ P.accepted L) {ref : Ref} (href : ref ∈ a.refs)
    (ht : t ∈ L ++ M) (hid : t.id = ref.target) : t ∈ L := by
  obtain ⟨i, hi, rfl⟩ := List.mem_iff_getElem.mp (mem_of_mem_accepted ha)
  obtain ⟨u, -, hc⟩ := h.accepted_at hs.left hi ha
  have hcheck := (checkSubject_passes hc).targets ref href
  simp only [Platform.checkRef, orReject_eq_none] at hcheck
  obtain ⟨y, hfind, -⟩ := hcheck
  obtain ⟨hy, hyid⟩ := find_mem hfind
  have hyL : y ∈ L := List.mem_of_mem_take hy
  obtain rfl : t = y := h'.eq_of_id_eq hs ht (List.mem_append_left _ hyL) (hid.trans hyid.symm)
  exact hyL

/-- **A log lies within its extensions.** -/
theorem Verified.within : ReplayEnd.Within P (P.replayEnd L s) (P.replayEnd (L ++ M) s') where
  accepted x hx := accepted_mono h.run (List.prefix_append L M) hx
  refs a ha ref href t ht hid := by
    have hmem := h.target_mem_left h' hs ha href (mem_of_mem_accepted ht) hid
    exact h.accepted_of_mem_left h' hmem ht
  parents c d hc hb p hp hparent := by
    obtain ⟨d', hform⟩ := h.candidate_form hs.left hc.1 hc.2.1
    obtain rfl : d' = d := Option.some.inj (hform.payload.symm.trans hc.2.2)
    obtain ⟨-, -, -, -, p', hp', -, hparent', -⟩ := hform.continuation hb
    have hid : p.id = p'.id := Option.some.inj (hparent.symm.trans hparent')
    have hpp : p = p' := h'.run.eq_of_accepted_id hp (accepted_mono h.run (List.prefix_append L M) hp') hid
    exact hpp ▸ hp'

/-- Dependence of an older record is dependence in the older log. -/
theorem Verified.depends_left {x y : Record} (hx : x ∈ P.accepted L)
    (hpath : Relation.TransGen (P.Depends (L ++ M)) x y) : Relation.TransGen (P.Depends L) x y := by
  have hhop {a b : Record} (ha : a ∈ P.accepted L) (hab : P.Depends (L ++ M) a b) : P.Depends L a b := by
    obtain ⟨-, hb, ref, href, htype, htarget⟩ := hab
    exact ⟨ha, h.target_mem_left h' hs ha href hb htarget.symm, ref, href, htype, htarget⟩
  induction hpath using Relation.TransGen.head_induction_on with
  | single hab => exact .single (hhop hx hab)
  | head hab hrest ih =>
    have hab' := hhop hx hab
    obtain ⟨c, hbc, -⟩ := Relation.TransGen.head'_iff.mp hrest
    exact .head hab' (ih (h.accepted_of_mem_left h' hab'.2.1 hbc.1))

/-- Without a new retraction, no older record is newly tainted. -/
theorem Verified.tainted_left (hret : ∀ id, P.RetractedIn (L ++ M) id → P.RetractedIn L id) {x : Record}
    (hx : x ∈ P.accepted L) (htaint : x.id ∈ s'.taintedRecords) : x.id ∈ s.taintedRecords := by
  obtain ⟨a, ha, hid, b, hpath, hb⟩ := (h'.run.taintExact.tainted x.id).mp htaint
  have hax : a = x := h'.run.eq_of_accepted_id ha (accepted_mono h.run (List.prefix_append L M) hx) hid
  subst hax
  exact (h.run.taintExact.tainted a.id).mpr
    ⟨a, hx, rfl, b, h.depends_left h' hs hx hpath, hret b.id hb⟩

end Extension

/-- A pair whose subject is not an accepted Retraction retracts nothing. -/
theorem Verified.retractedIn_left (h' : Verified P rules (L ++ [r, v]) s')
    (hno : ¬(r ∈ P.accepted (L ++ [r, v]) ∧ r.kind = .retraction)) {id : RecordId}
    (hret : P.RetractedIn (L ++ [r, v]) id) : P.RetractedIn L id := by
  obtain ⟨t, ht, -, -, -, -, hstep⟩ := Verified.snoc_iff.mp h'
  obtain ⟨x, hx, hk, hd⟩ := hret
  rcases ht.run.step_cases hstep with ⟨hacc, -⟩ | ⟨hacc, -⟩
  · rw [hacc] at hx
    exact ⟨x, hx, hk, hd⟩
  · rw [hacc, List.mem_append, List.mem_singleton] at hx
    rcases hx with hx | rfl
    · exact ⟨x, hx, hk, hd⟩
    · exact absurd ⟨by rw [hacc]; simp, hk⟩ hno

/-- A pair whose subject is not an accepted Selection with a Replace ref has no such Selection. -/
theorem Verified.replacing_left (h' : Verified P rules (L ++ [r, v]) s')
    (hno : ¬(r ∈ P.accepted (L ++ [r, v]) ∧ r.kind = .selection ∧ findReplaceRef r.refs ≠ none))
    {x : Record} (hx : x ∈ P.accepted (L ++ [r, v])) (hk : x.kind = .selection)
    (hrep : findReplaceRef x.refs ≠ none) : x ∈ P.accepted L := by
  obtain ⟨t, ht, -, -, -, -, hstep⟩ := Verified.snoc_iff.mp h'
  rcases ht.run.step_cases hstep with ⟨hacc, -⟩ | ⟨hacc, -⟩
  · rwa [hacc] at hx
  · rw [hacc] at hx hno
    rcases List.mem_append.mp hx with hx | hx
    · exact hx
    · obtain rfl := List.mem_singleton.mp hx
      exact absurd ⟨by simp, hk, hrep⟩ hno

/-! ## The report -/

section Report

variable (h : Verified P rules L s) (hs : P.HashSound L) (horder : P.HashOrderPermutes)
include h hs horder

/-- The report lists an accepted Candidate exactly when it is not sound. -/
theorem Verified.compromised_iff {c : Record} (hc : c ∈ P.accepted L) (hk : c.kind = .candidate) :
    c.id ∈ (P.verifyLog rules L none).standing.compromised ↔ ¬(P.replayEnd L s).SoundCandidate P c := by
  rw [h.verifyLog_eq]
  show c.id ∈ (P.deriveStanding L s).compromised ↔ _
  rw [(h.standing hs horder).compromised]
  constructor
  · rintro ⟨c', d, hc', hid, hnot⟩
    rwa [h.run.eq_of_accepted_id hc'.1 hc hid] at hnot
  · intro hnot
    obtain ⟨d, hform⟩ := h.candidate_form hs hc hk
    exact ⟨c, d, ⟨hc, hk, hform.payload⟩, rfl, hnot⟩

/-- The report lists an accepted Selection exactly when it is marked. -/
theorem Verified.unsound_iff {x : Record} (hx : x ∈ P.accepted L) (hk : x.kind = .selection) :
    x.id ∈ (P.verifyLog rules L none).standing.unsound ↔
      x.id ∈ s.retractedRecords ∨ x.id ∈ s.taintedRecords := by
  rw [h.verifyLog_eq]
  show x.id ∈ (P.deriveStanding L s).unsound ↔ _
  rw [(h.standing hs horder).unsound]
  constructor
  · rintro ⟨x', hx', hid⟩
    rw [← hid]
    exact hx'.2
  · exact fun hmark => ⟨x, ⟨⟨hx, hk⟩, hmark⟩, rfl⟩

end Report

namespace Platform

variable (P : Platform)

/-- The accepted Candidates and Selections of `L` that are sound there are sound at the end of
`L'`. -/
def KeepsSound (rules : VerifierRules) (L L' : List Record) : Prop :=
  ∀ x ∈ P.accepted L,
    (x.kind = .candidate → x.id ∉ (P.verifyLog rules L none).standing.compromised →
      x.id ∉ (P.verifyLog rules L' none).standing.compromised) ∧
    (x.kind = .selection → x.id ∉ (P.verifyLog rules L none).standing.unsound →
      x.id ∉ (P.verifyLog rules L' none).standing.unsound)

/-- The accepted Candidates of `L` that are compromised there are compromised at the end of `L'`. -/
def KeepsCompromised (rules : VerifierRules) (L L' : List Record) : Prop :=
  ∀ c ∈ P.accepted L, c.kind = .candidate →
    c.id ∈ (P.verifyLog rules L none).standing.compromised →
    c.id ∈ (P.verifyLog rules L' none).standing.compromised

/-- The unsound Selections and the retracted Candidates of `L` have no standing at the end of `L'`. -/
def KeepsMarked (rules : VerifierRules) (L L' : List Record) : Prop :=
  ∀ x ∈ P.accepted L,
    (x.kind = .selection → x.id ∈ (P.verifyLog rules L none).standing.unsound →
      x.id ∈ (P.verifyLog rules L' none).standing.unsound) ∧
    (x.kind = .candidate → x.id ∈ (P.verifyLog rules L none).retractedRecords →
      x.id ∈ (P.verifyLog rules L' none).standing.compromised)

end Platform

section OnePair

variable (hs : P.HashSound (L ++ [r, v])) (horder : P.HashOrderPermutes) (h : Verified P rules L s)
  (h' : Verified P rules (L ++ [r, v]) s')
include hs horder h h'

theorem Verified.keepsSound (hno : ¬(r ∈ P.accepted (L ++ [r, v]) ∧ r.kind = .retraction)) :
    P.KeepsSound rules L (L ++ [r, v]) := by
  have hret (id : RecordId) (hid : P.RetractedIn (L ++ [r, v]) id) : P.RetractedIn L id :=
    h'.retractedIn_left hno hid
  have hretracted : ∀ x ∈ P.accepted L, x.id ∈ s'.retractedRecords → x.id ∈ s.retractedRecords := by
    intro x _ hx
    exact (h.run.retracted x.id).mpr (hret x.id ((h'.run.retracted x.id).mp hx))
  have htainted : ∀ x ∈ P.accepted L, x.id ∈ s'.taintedRecords → x.id ∈ s.taintedRecords :=
    fun x hx hmark => h.tainted_left h' hs hret hx hmark
  intro x hx
  have hx' : x ∈ P.accepted (L ++ [r, v]) := accepted_mono h.run (List.prefix_append _ _) hx
  constructor
  · intro hk
    rw [h.compromised_iff hs.left horder hx hk, h'.compromised_iff hs horder hx' hk, not_not, not_not]
    exact ReplayEnd.SoundCandidate.extend (h.within h' hs) hretracted htainted
  · intro hk
    rw [h.unsound_iff hs.left horder hx hk, h'.unsound_iff hs horder hx' hk]
    exact fun hsound hmark => hsound (hmark.imp (hretracted x hx) (htainted x hx))

theorem Verified.keepsCompromised
    (hno : ¬(r ∈ P.accepted (L ++ [r, v]) ∧ r.kind = .selection ∧ findReplaceRef r.refs ≠ none)) :
    P.KeepsCompromised rules L (L ++ [r, v]) := by
  have hmarks := h.run.marks h'.run
  intro c hc hk
  have hc' : c ∈ P.accepted (L ++ [r, v]) := accepted_mono h.run (List.prefix_append _ _) hc
  rw [h.compromised_iff hs.left horder hc hk, h'.compromised_iff hs horder hc' hk, not_imp_not]
  intro hsound
  exact hsound.restrict (h.within h' hs) hmarks.retracted hmarks.tainted
    (fun x hx hkx hrep => h'.replacing_left hno hx hkx hrep) hc

end OnePair

/-- Marks and what they take standing from, over any extension. -/
theorem Verified.keepsMarked (hs : P.HashSound (L ++ M)) (horder : P.HashOrderPermutes)
    (h : Verified P rules L s) (h' : Verified P rules (L ++ M) s') :
    P.KeepsMarked rules L (L ++ M) := by
  have hmarks := h.run.marks h'.run
  intro x hx
  have hx' : x ∈ P.accepted (L ++ M) := accepted_mono h.run (List.prefix_append _ _) hx
  constructor
  · intro hk
    rw [h.unsound_iff hs.left horder hx hk, h'.unsound_iff hs horder hx' hk]
    exact Or.imp (hmarks.retracted x.id) (hmarks.tainted x.id)
  · intro hk hret
    rw [h.verifyLog_eq] at hret
    rw [h'.compromised_iff hs horder hx' hk]
    exact fun hsound => hsound.proposes.1 (hmarks.retracted x.id hret)

end Bellbook
