import Mathlib.Order.Bounds.Basic
import Mathlib.Order.MinMax
import Bellbook.Verify.Taint

/-!
# The closed form of evidence

The check of a record's evidence is local: it reads the stored evidence of the direct targets,
lowered to `Assumed` where the acceptance, retraction and taint sets of that moment say so. Over an
accepted log this amounts to a law about everything the record transitively rests on
(`evidence_closed_form`).

The induction is along the log. It couples the stored evidence of a target, fixed when the target
was accepted, with the taint the target has picked up since (`contribution_of_bad`).
-/

namespace Bellbook

/-- One `Use` or `Require` ref between records of the log, whatever their verdicts. -/
def RefersTo (L : List Record) (x y : Record) : Prop := x ∈ L ∧ y ∈ L ∧ x.restsOn y.id

/-- A record that lowers what rests on it, as of the first `i` records. -/
def Platform.Lowers (P : Platform) (L : List Record) (i : Nat) (x : Record) : Prop :=
  x ∉ P.accepted L ∨ P.RetractedIn (L.take i) x.id

variable {P : Platform} {rules : VerifierRules} {L : List Record} {s : State}

/-! ## Evidence as a maximum -/

theorem Evidence.le_assumed (e : Evidence) : e ≤ .assumed := by cases e <;> decide

theorem Evidence.eq_assumed_of_le {e : Evidence} (h : .assumed ≤ e) : e = .assumed :=
  le_antisymm e.le_assumed h

theorem weakest_cons (e : Evidence) (es : List Evidence) :
    IsGreatest {x | x ∈ e :: es} (weakest (e :: es)) := by
  have hmax : (e :: es).max? = some (weakest (e :: es)) := by
    cases h : (e :: es).max? with
    | none => simp at h
    | some m => simp [weakest, h]
  obtain ⟨hmem, hle⟩ := List.max?_eq_some_iff.mp hmax
  exact ⟨hmem, fun x hx => hle x hx⟩

/-- The derived evidence is the weakest of the base and the contributions. -/
theorem deriveEvidence_isGreatest (schema : Hash256) (es : List Evidence) :
    IsGreatest {x | x = P.baseEvidence schema ∨ x ∈ es} (P.deriveEvidence schema es) := by
  unfold Platform.deriveEvidence
  have := weakest_cons (P.baseEvidence schema) es
  simp only [List.mem_cons] at this
  split
  · next h =>
    subst h
    exact ⟨.inl rfl, fun x hx => by simpa using hx.elim le_of_eq (by simp)⟩
  · exact this

/-! ## The contributions of an accepted record's refs -/

/-- What a target contributes in a state. -/
def State.contribution (s : State) (x : Record) : Evidence :=
  if s.usable x.id then x.evidence else .assumed

namespace Verified

variable {i : Nat}

/-- The targets of an accepted record precede it. -/
theorem target_mem (h : Verified P rules L s) (hs : P.HashSound L) (hi : i < L.length)
    (ha : L[i] ∈ P.accepted L) {x : Record} (hx : RefersTo L L[i] x) : x ∈ L.take i := by
  obtain ⟨t, ht, hc⟩ := h.accepted_at hs hi ha
  obtain ⟨-, hxL, ref, href, -, htarget⟩ := hx
  have hcheck := (checkSubject_passes hc).targets ref href
  simp only [Platform.checkRef, orReject_eq_none] at hcheck
  obtain ⟨y, hfind, -⟩ := hcheck
  obtain ⟨hy, hid⟩ := find_mem hfind
  rwa [← h.eq_of_id_eq hs (List.mem_of_mem_take hy) hxL (by rw [hid, htarget])]

/-- The evidence of an accepted record is the weakest of its base and its targets'
contributions. -/
theorem evidence_isGreatest (h : Verified P rules L s) (hs : P.HashSound L) (hi : i < L.length)
    (ha : L[i] ∈ P.accepted L) :
    ∃ t, Verified P rules (L.take i) t ∧
      IsGreatest {e | e = P.baseEvidence L[i].schema ∨
        ∃ x, RefersTo L L[i] x ∧ e = t.contribution x} L[i].evidence := by
  obtain ⟨t, ht, hc⟩ := h.accepted_at hs hi ha
  refine ⟨t, ht, ?_⟩
  have hev := (checkSubject_passes hc).evidence
  have hgreatest := deriveEvidence_isGreatest (P := P) L[i].schema
    (Platform.refEvidences (priorView (L.take i)).find t L[i].refs)
  rw [← hev] at hgreatest
  convert hgreatest using 3
  next e =>
  refine or_congr_right ?_
  unfold Platform.refEvidences
  rw [List.mem_filterMap]
  constructor
  · rintro ⟨x, hx, rfl⟩
    have hxi := h.target_mem hs hi ha hx
    obtain ⟨-, -, ref, href, hep, htarget⟩ := hx
    refine ⟨ref, href, ?_⟩
    rw [(ht.find_eq_some (hs.mono (List.take_subset _ _))).mpr ⟨hxi, htarget.symm⟩]
    by_cases hu : t.usable x.id = true <;>
      simp [State.refEvidence, State.contribution, hep, hu]
  · rintro ⟨ref, href, hbind⟩
    obtain ⟨x, hfind, hx⟩ := Option.bind_eq_some_iff.mp hbind
    obtain ⟨hxi, hid⟩ := find_mem hfind
    by_cases hep : ref.type.epistemic = true
    · refine ⟨x, ⟨List.getElem_mem hi, List.mem_of_mem_take hxi, ref, href, hep, hid.symm⟩, ?_⟩
      by_cases hu : t.usable x.id = true <;>
        simpa [State.refEvidence, State.contribution, hep, hu, eq_comm] using hx
    · simp [State.refEvidence, hep] at hx

/-! ## Dependence through accepted records -/

/-- Everything an accepted record rests on through accepted records only precedes it, so the path
is one of dependence at any later point. -/
theorem depends_take (h : Verified P rules L s) (hs : P.HashSound L) {t : State}
    (ht : Verified P rules (L.take i) t) {x y : Record} (hx : x ∈ P.accepted (L.take i))
    (hpath : Relation.TransGen (RefersTo L) x y)
    (hall : ∀ z, Relation.TransGen (RefersTo L) x z → z ∈ P.accepted L) :
    Relation.TransGen (P.Depends (L.take i)) x y ∧ y ∈ P.accepted (L.take i) := by
  have hstep {a b : Record} (ha : a ∈ P.accepted (L.take i)) (hab : RefersTo L a b)
      (hb : b ∈ P.accepted L) :
      P.Depends (L.take i) a b ∧ b ∈ P.accepted (L.take i) := by
    have haL : a ∈ P.accepted L := accepted_mono ht.run (List.take_prefix _ _) ha
    obtain ⟨j, hj, rfl⟩ := List.mem_take_iff_getElem.mp (mem_of_mem_accepted ha)
    have hbj := h.target_mem hs (by omega) haL hab
    have hbi : b ∈ L.take i := (List.take_prefix_take_left (by omega)).subset hbj
    exact ⟨⟨ha, hbi, hab.2.2⟩, h.accepted_take ht hb hbi⟩
  induction hpath with
  | single hxy =>
    obtain ⟨hdep, hy⟩ := hstep hx hxy (hall _ (.single hxy))
    exact ⟨.single hdep, hy⟩
  | tail hxz hzy ih =>
    obtain ⟨hdep, hy⟩ := hstep ih.2 hzy (hall _ (.tail hxz hzy))
    exact ⟨.tail ih.1 hdep, hy⟩

/-- A usable target of an accepted record was accepted before it. -/
theorem usable_target (h : Verified P rules L s) (hs : P.HashSound L) (hi : i < L.length)
    (ha : L[i] ∈ P.accepted L) {t : State} (ht : Verified P rules (L.take i) t) {x : Record}
    (hx : RefersTo L L[i] x) (hacc : x.id ∈ t.acceptedRecords) :
    ∃ (j : Nat) (hj : j < L.length), j < i ∧ x = L[j] ∧ L[j] ∈ P.accepted L ∧
      L[j] ∈ P.accepted (L.take i) := by
  have hxi := h.target_mem hs hi ha hx
  have hxacc := ht.accepted_of_mem (hs.mono (List.take_subset _ _)) hxi hacc
  obtain ⟨j, hj, rfl⟩ := List.mem_take_iff_getElem.mp hxi
  exact ⟨j, by omega, by omega, rfl,
    accepted_mono ht.run (List.take_prefix _ _) hxacc, hxacc⟩

end Verified

/-! ## The law -/

/-- The law for the record at position `i`: everything it rests on. -/
structure EvidenceLaw (P : Platform) (L : List Record) (i : Nat) (a : Record) : Prop where
  lowered : (∃ x, Relation.TransGen (RefersTo L) a x ∧ P.Lowers L i x) → a.evidence = .assumed
  weakest : (∀ x, Relation.TransGen (RefersTo L) a x → ¬P.Lowers L i x) →
    IsGreatest {e | ∃ y, Relation.ReflTransGen (RefersTo L) a y ∧ e = P.baseEvidence y.schema}
      a.evidence

/-- What a target contributes, given the law for earlier records. -/
theorem Verified.contribution_of_bad (h : Verified P rules L s) (hs : P.HashSound L) {i : Nat}
    (hi : i < L.length) (ha : L[i] ∈ P.accepted L) {t : State}
    (ht : Verified P rules (L.take i) t)
    (ih : ∀ j (hj : j < L.length), j < i → L[j] ∈ P.accepted L → EvidenceLaw P L j L[j])
    {x y : Record} (hx : RefersTo L L[i] x) (hpath : Relation.ReflTransGen (RefersTo L) x y)
    (hbad : P.Lowers L i y) : t.contribution x = .assumed := by
  unfold State.contribution
  split
  case isFalse => rfl
  case isTrue hu =>
  rw [State.usable_iff] at hu
  obtain ⟨hacc, hret, htaint⟩ := hu
  obtain ⟨j, hj, hji, rfl, hjL, hjt⟩ := h.usable_target hs hi ha ht hx hacc
  have hexact := ht.run.taintExact
  rcases Relation.reflTransGen_iff_eq_or_transGen.mp hpath with rfl | hpath
  · rcases hbad with hbad | hbad
    · exact absurd hjL hbad
    · exact absurd ((hexact.retracted _).mpr hbad) hret
  · -- a rejected record on the way is covered by the law of the target; otherwise the path is one
    -- of dependence, and the target is tainted by now
    by_cases hall : ∀ z, Relation.TransGen (RefersTo L) L[j] z → z ∈ P.accepted L
    · rcases hbad with hbad | hbad
      · exact absurd (hall y hpath) hbad
      · obtain ⟨hdep, -⟩ := h.depends_take hs ht hjt hpath hall
        exact absurd ((hexact.tainted _).mpr ⟨_, hjt, rfl, y, hdep, hbad⟩) htaint
    · push Not at hall
      obtain ⟨z, hz, hrej⟩ := hall
      exact (ih j hj hji hjL).lowered ⟨z, hz, .inl hrej⟩

theorem Verified.contribution_of_good (h : Verified P rules L s) (hs : P.HashSound L) {i : Nat}
    (hi : i < L.length) (ha : L[i] ∈ P.accepted L) {t : State}
    (ht : Verified P rules (L.take i) t)
    (ih : ∀ j (hj : j < L.length), j < i → L[j] ∈ P.accepted L → EvidenceLaw P L j L[j])
    (hgood : ∀ x, Relation.TransGen (RefersTo L) L[i] x → ¬P.Lowers L i x)
    {y : Record} (hy : RefersTo L L[i] y) :
    t.contribution y = y.evidence ∧
      IsGreatest {e | ∃ z, Relation.ReflTransGen (RefersTo L) y z ∧ e = P.baseEvidence z.schema}
        y.evidence := by
  have hexact := ht.run.taintExact
  have hyacc : y ∈ P.accepted (L.take i) := by
    have := hgood y (.single hy)
    simp only [Platform.Lowers, not_or, not_not] at this
    exact h.accepted_take ht this.1 (h.target_mem hs hi ha hy)
  have husable : t.usable y.id = true := by
    rw [State.usable_iff]
    refine ⟨ht.run.mem_acceptedRecords.mpr ⟨y, hyacc, rfl⟩, fun hret => ?_, fun htaint => ?_⟩
    · exact hgood y (.single hy) (.inr ((hexact.retracted _).mp hret))
    · -- a tainted target leads to a retracted record
      obtain ⟨a, ha', hid, b, hdep, hb⟩ := (hexact.tainted _).mp htaint
      obtain rfl := ht.run.eq_of_accepted_id ha' hyacc hid
      have hpath : Relation.TransGen (RefersTo L) a b := Relation.TransGen.mono
        (fun c d hcd => ⟨List.mem_of_mem_take (mem_of_mem_accepted hcd.1),
          List.mem_of_mem_take hcd.2.1, hcd.2.2⟩) _ _ hdep
      exact hgood b (.head hy hpath) (.inr hb)
  refine ⟨by rw [State.contribution, if_pos husable], ?_⟩
  obtain ⟨j, hj, hji, rfl, hjL, -⟩ := h.usable_target hs hi ha ht hy
    (State.usable_iff.mp husable).1
  refine (ih j hj hji hjL).weakest fun x hx hlow => hgood x (.head hy hx) (hlow.imp_right fun hr => ?_)
  obtain ⟨u, hu, -⟩ := h.accepted_at hs hj hjL
  exact hr.mono (accepted_mono hu.run (List.take_prefix_take_left (by omega)))

/-- The law holds of every accepted record. -/
theorem Verified.evidenceLaw (h : Verified P rules L s) (hs : P.HashSound L) {i : Nat}
    (hi : i < L.length) (ha : L[i] ∈ P.accepted L) : EvidenceLaw P L i L[i] := by
  induction i using Nat.strong_induction_on with
  | _ i ih =>
  replace ih : ∀ j (hj : j < L.length), j < i → L[j] ∈ P.accepted L → EvidenceLaw P L j L[j] :=
    fun j hj hji hacc => ih j hji hj hacc
  obtain ⟨t, ht, hgreatest⟩ := h.evidence_isGreatest hs hi ha
  refine ⟨?_, fun hgood => ⟨?_, ?_⟩⟩
  · rintro ⟨x, hpath, hbad⟩
    obtain ⟨y, hy, hyx⟩ := Relation.TransGen.head'_iff.mp hpath
    have := hgreatest.2 (.inr ⟨y, hy, (h.contribution_of_bad hs hi ha ht ih hy hyx hbad).symm⟩)
    exact Evidence.eq_assumed_of_le this
  · rcases hgreatest.1 with hbase | ⟨y, hy, hcontrib⟩
    · exact ⟨L[i], .refl, hbase⟩
    · obtain ⟨heq, hlaw⟩ := h.contribution_of_good hs hi ha ht ih hgood hy
      obtain ⟨z, hz, hbase⟩ := hlaw.1
      exact ⟨z, .head hy hz, by rw [hcontrib, heq, hbase]⟩
  · rintro e ⟨y, hpath, rfl⟩
    rcases Relation.ReflTransGen.cases_head hpath with rfl | ⟨z, hz, hzy⟩
    · exact hgreatest.2 (.inl rfl)
    · obtain ⟨heq, hlaw⟩ := h.contribution_of_good hs hi ha ht ih hgood hz
      calc P.baseEvidence y.schema ≤ z.evidence := hlaw.2 ⟨y, hzy, rfl⟩
        _ = t.contribution z := heq.symm
        _ ≤ L[i].evidence := hgreatest.2 (.inr ⟨z, hz, rfl⟩)

/-! ## Consequences -/

/-- The base evidence of a schema of one of these kinds. -/
theorem baseEvidence_of_kind (hdist : P.SchemasDistinct) {name : String} {k : Kind} {e : Evidence}
    (h : (name, k) ∈ schemaKinds)
    (hall : ∀ p ∈ schemaKinds, p.2 = k → e ≤ (schemaEvidence.lookup p.1).getD .assumed) :
    e ≤ P.baseEvidence (P.schemaId name) := by
  rw [baseEvidence_schemaId hdist (schemaKinds_names ▸ List.mem_map_of_mem h)]
  exact hall _ h rfl

namespace Verified

variable {i : Nat}

/-- The base evidence of an accepted record bounds its evidence. -/
theorem base_le (h : Verified P rules L s) (hs : P.HashSound L) (hfrozen : P.Frozen rules)
    (hi : i < L.length) (ha : L[i] ∈ P.accepted L) {e : Evidence}
    (hall : ∀ p ∈ schemaKinds, p.2 = L[i].kind → e ≤ (schemaEvidence.lookup p.1).getD .assumed) :
    e ≤ L[i].evidence := by
  obtain ⟨t, -, hc⟩ := h.accepted_at hs hi ha
  obtain ⟨name, hname, hid⟩ := (checkSubject_passes hc).schema_name hfrozen
  obtain ⟨u, -, hgreatest⟩ := h.evidence_isGreatest hs hi ha
  calc e ≤ P.baseEvidence (P.schemaId name) := baseEvidence_of_kind hs.schemasDistinct hname hall
    _ = P.baseEvidence L[i].schema := by rw [hid]
    _ ≤ L[i].evidence := hgreatest.2 (.inl rfl)

/-- A record is no stronger than anything it rests on. -/
theorem evidence_le (h : Verified P rules L s) (hs : P.HashSound L) (hi : i < L.length)
    (ha : L[i] ∈ P.accepted L) {x : Record} (hx : Relation.TransGen (RefersTo L) L[i] x) :
    x.evidence ≤ L[i].evidence := by
  have hlaw := h.evidenceLaw hs hi ha
  by_cases hbad : ∃ y, Relation.TransGen (RefersTo L) L[i] y ∧ P.Lowers L i y
  · rw [hlaw.lowered hbad]
    exact x.evidence.le_assumed
  · have hgood : ∀ y, Relation.TransGen (RefersTo L) L[i] y → ¬P.Lowers L i y :=
      fun y hy hlow => hbad ⟨y, hy, hlow⟩
    have hgreatest := hlaw.weakest hgood
    -- the record below has its evidence from something this one rests on too
    obtain ⟨t, ht, -⟩ := h.accepted_at hs hi ha
    have haccepted {y : Record} (hy : Relation.TransGen (RefersTo L) L[i] y) :
        y ∈ P.accepted L := by
      have := hgood y hy
      simp only [Platform.Lowers, not_or, not_not] at this
      exact this.1
    obtain ⟨y, hy, hyx⟩ := Relation.TransGen.head'_iff.mp hx
    have hyi : y ∈ P.accepted (L.take i) :=
      h.accepted_take ht (haccepted (.single hy)) (h.target_mem hs hi ha hy)
    have hxi : x ∈ P.accepted (L.take i) := by
      rcases Relation.reflTransGen_iff_eq_or_transGen.mp hyx with rfl | hyx
      · exact hyi
      · exact (h.depends_take hs ht hyi hyx fun z hz => haccepted (.head hy hz)).2
    obtain ⟨j, hj, rfl⟩ := List.mem_take_iff_getElem.mp (mem_of_mem_accepted hxi)
    have hlawx := h.evidenceLaw hs (by omega) (haccepted hx)
    obtain ⟨u, hu, -⟩ := h.accepted_at hs (by omega) (haccepted hx)
    obtain ⟨z, hz, hbase⟩ := (hlawx.weakest fun z hz hlow =>
      hgood z (hx.trans hz) (hlow.imp_right fun hr =>
        hr.mono (accepted_mono hu.run (List.take_prefix_take_left (by omega))))).1
    rw [hbase]
    exact hgreatest.2 ⟨z, hx.to_reflTransGen.trans hz, rfl⟩

/-- The accepted Candidate an attested Evaluation rests on. -/
theorem attested_candidate (h : Verified P rules L s) (hs : P.HashSound L) (hi : i < L.length)
    (ha : L[i] ∈ P.accepted L) (hk : L[i].kind = .evaluation)
    (hschema : L[i].schema = P.schemaId schemaEvaluationAttested) :
    ∃ c, RefersTo L L[i] c ∧ c.kind = .candidate ∧ c ∈ P.accepted L := by
  obtain ⟨t, ht, hc⟩ := h.accepted_at hs hi ha
  have hkind := (checkSubject_passes hc).kind
  simp only [Platform.checkKindSpecific, hk, Platform.checkEvaluation, hschema, or_true, if_true,
    Platform.checkEvaluationV2, orReject_eq_none, orElse_none_iff, rejectIf_eq_none,
    Bool.not_eq_false] at hkind
  obtain ⟨data, -, -, c, hcand, huses, -⟩ := hkind
  unfold resolveCandidate at hcand
  rw [Option.filter_eq_some_iff] at hcand
  obtain ⟨hfind, hprops⟩ := hcand
  simp only [Bool.and_eq_true, decide_eq_true_eq] at hprops
  obtain ⟨hmem, hid⟩ := find_mem hfind
  simp only [Record.uses, List.any_eq_true, Bool.and_eq_true, decide_eq_true_eq] at huses
  obtain ⟨ref, href, htype, htarget⟩ := huses
  refine ⟨c, ⟨List.getElem_mem _, List.mem_of_mem_take hmem, ref, href, ?_, ?_⟩, hprops.1.2, ?_⟩
  · rw [htype]
    rfl
  · rw [htarget, hid]
  · exact accepted_mono ht.run (List.take_prefix _ _)
      (ht.accepted_of_mem (hs.mono (List.take_subset _ _)) hmem hprops.2)

theorem evaluation_le (h : Verified P rules L s) (hs : P.HashSound L) (hfrozen : P.Frozen rules)
    (hi : i < L.length) (ha : L[i] ∈ P.accepted L) (hk : L[i].kind = .evaluation) :
    .reported ≤ L[i].evidence := by
  by_cases hschema : L[i].schema = P.schemaId schemaEvaluationAttested
  · -- an attested evaluation starts higher, but rests on its Candidate
    obtain ⟨c, hc, hck, hcacc⟩ := h.attested_candidate hs hi ha hk hschema
    obtain ⟨j, hj, rfl⟩ := List.mem_iff_getElem.mp (mem_of_mem_accepted hcacc)
    calc Evidence.reported ≤ L[j].evidence :=
          h.base_le hs hfrozen hj hcacc (by rw [hck]; decide)
      _ ≤ L[i].evidence := h.evidence_le hs hi ha (.single hc)
  · obtain ⟨t, -, hc⟩ := h.accepted_at hs hi ha
    obtain ⟨name, hname, hid⟩ := (checkSubject_passes hc).schema_name hfrozen
    obtain ⟨u, -, hgreatest⟩ := h.evidence_isGreatest hs hi ha
    have hne : name ≠ schemaEvaluationAttested := fun heq => hschema (by rw [← hid, heq])
    have hbase : .reported ≤ P.baseEvidence (P.schemaId name) := by
      rw [baseEvidence_schemaId hs.schemasDistinct (schemaKinds_names ▸ List.mem_map_of_mem hname)]
      rw [hk] at hname
      have : ∀ p ∈ schemaKinds, p.2 = .evaluation → p.1 ≠ schemaEvaluationAttested →
          .reported ≤ (schemaEvidence.lookup p.1).getD .assumed := by decide
      exact this _ hname rfl hne
    rw [hid] at hbase
    exact hbase.trans (hgreatest.2 (.inl rfl))

end Verified

/-- **Evidence has a closed form and is never inflated.** For the accepted record at position `i`:
the law over everything it rests on; it is no stronger than any of that; an Evaluation is at most
`Reported`, a Selection at most `Inferred`. (Weaker evidence is greater.) -/
theorem evidence_closed_form (hfrozen : P.Frozen rules) (hs : P.HashSound L)
    (h : P.Accepts rules L) (i : Nat) (hi : i < L.length) (ha : L[i] ∈ P.accepted L) :
    ((∃ x, Relation.TransGen (RefersTo L) L[i] x ∧
        (x ∉ P.accepted L ∨ P.RetractedIn (L.take i) x.id)) → L[i].evidence = .assumed) ∧
      ((∀ x, Relation.TransGen (RefersTo L) L[i] x →
          x ∈ P.accepted L ∧ ¬P.RetractedIn (L.take i) x.id) →
        IsGreatest {e | ∃ y, Relation.ReflTransGen (RefersTo L) L[i] y ∧
          e = P.baseEvidence y.schema} L[i].evidence) ∧
      (∀ x, Relation.TransGen (RefersTo L) L[i] x → x.evidence ≤ L[i].evidence) ∧
      (L[i].kind = .evaluation → .reported ≤ L[i].evidence) ∧
      (L[i].kind = .selection → .inferred ≤ L[i].evidence) := by
  obtain ⟨s, hv⟩ := accepts_iff.mp h
  have hlaw := hv.evidenceLaw hs hi ha
  refine ⟨hlaw.lowered, fun hgood => hlaw.weakest fun x hx => ?_, fun x hx => hv.evidence_le hs hi ha hx,
    fun hk => hv.evaluation_le hs hfrozen hi ha hk, fun hk => ?_⟩
  · rw [Platform.Lowers, not_or, not_not]
    exact hgood x hx
  · exact hv.base_le hs hfrozen hi ha (by rw [hk]; decide)

theorem sampleAction_evidence :
    sampleAction ∈ reference.accepted sampleLog ∧
      ∀ x, Relation.TransGen (RefersTo sampleLog) sampleAction x →
        x.evidence ≤ sampleAction.evidence :=
  ⟨sampleAction_accepted,
    (evidence_closed_form sampleRules_frozen sampleLog_hashSound sampleLog_accepts 6 (by decide)
      sampleAction_accepted).2.2.1⟩

end Bellbook
