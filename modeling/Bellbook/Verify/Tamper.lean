import Bellbook.Verify.Specification

/-!
# Edits of one record

What happens to an accepted log when one of its records is replaced. Pairing by the `Cause` ref and
the recomputed ids pin a subject; the envelope checks pin every field of a verdict record but two,
its id, which is recomputed, and the id of its author, which no check reads.
`single_edit_rejected_iff` is the exact condition under which an edit goes through.
-/

namespace Bellbook

open Std

/-- `v'` differs from `v` in nothing but its id and its author's id. -/
def SameButAuthorId (v v' : Record) : Prop :=
  { v' with id := v.id, author := { v'.author with id := v.author.id } } = v

namespace Platform

variable (P : Platform)

/-- Replacing the record at position `i` by `r'` changes a verdict record in its author's id alone,
with the id recomputed, and every later subject is judged as before. -/
structure UndetectedEdit (rules : VerifierRules) (L : List Record) (i : Nat) (hi : i < L.length)
    (r' : Record) : Prop where
  verdict : L[i].kind = .verdict
  same : SameButAuthorId L[i] r'
  id : P.computeId r' = some r'.id
  later : ∀ (j : Nat) (hj : j < L.length), i < j → L[j].kind ≠ .verdict → ∀ s,
    P.buildStateUnchecked (L.take j) = some s →
    P.checkRecord rules (priorView ((L.set i r').take (j + 1))) s L[j] =
      P.checkRecord rules (priorView (L.take (j + 1))) s L[j]

end Platform

variable {P : Platform} {rules : VerifierRules} {L L' : List Record} {s : State} {r v v' : Record}

/-! ## What the envelope pins -/

/-- Two valid verdict records of one subject that store the same verdict at the same time. -/
theorem sameButAuthorId_of_valid {subject : Record} {d : VerdictData}
    (h : P.ValidVerdict rules subject v) (h' : P.ValidVerdict rules subject v')
    (hk : v.kind = .verdict) (hk' : v'.kind = .verdict) (ht : v.time = v'.time)
    (hd : P.decode VerdictData v.data = some d) (hd' : P.decode VerdictData v'.data = some d) :
    SameButAuthorId v v' := by
  have hdata : v.data = v'.data := by
    have hc := h.data
    have hc' := h'.data
    simp only [Platform.decodesCanonically, hd, hd', decide_eq_true_eq] at hc hc'
    exact Option.some.inj (hc.symm.trans hc')
  have h1 := h.schema.trans h'.schema.symm
  have h2 := h.authorType.trans h'.authorType.symm
  have h3 := h.unsigned.trans h'.unsigned.symm
  have h4 := h.space.trans h'.space.symm
  have h5 := h.thread.trans h'.thread.symm
  have h6 := h.evidence.trans h'.evidence.symm
  have h7 := h.refs.trans h'.refs.symm
  have h8 := hk.trans hk'.symm
  obtain ⟨_, _, _, _, ⟨_, _, _⟩, _, _, _, _, _⟩ := v
  obtain ⟨_, _, _, _, ⟨_, _, _⟩, _, _, _, _, _⟩ := v'
  simp only at h1 h2 h3 h4 h5 h6 h7 h8 hdata ht
  subst h1 h2 h3 h4 h5 h6 h7 h8 hdata ht
  rfl

/-! ## Logs up to the authors of their verdicts -/

/-- The record, a verdict without its id and the id of its author. -/
def Record.anonymous (r : Record) : Record :=
  if r.kind = .verdict then { r with id := 0, author := { r.author with id := "" } } else r

namespace Record

@[simp] theorem anonymous_kind (r : Record) : r.anonymous.kind = r.kind := by
  unfold anonymous
  split <;> rfl

@[simp] theorem anonymous_time (r : Record) : r.anonymous.time = r.time := by
  unfold anonymous
  split <;> rfl

@[simp] theorem anonymous_data (r : Record) : r.anonymous.data = r.data := by
  unfold anonymous
  split <;> rfl

@[simp] theorem anonymous_refs (r : Record) : r.anonymous.refs = r.refs := by
  unfold anonymous
  split <;> rfl

theorem anonymous_eq_self {r : Record} (h : r.kind ≠ .verdict) : r.anonymous = r := if_neg h

theorem eq_of_anonymous_eq {r r' : Record} (hk : r.kind ≠ .verdict)
    (h : r.anonymous = r'.anonymous) : r = r' := by
  have hk' : r'.kind ≠ .verdict := by
    rw [← anonymous_kind, ← h, anonymous_kind]
    exact hk
  rwa [anonymous_eq_self hk, anonymous_eq_self hk'] at h

@[simp] theorem anonymous_judges (r : Record) (id : RecordId) :
    r.anonymous.judges id = r.judges id := by
  simp [judges]

end Record

theorem SameButAuthorId.anonymous_eq (h : SameButAuthorId v v') (hk : v.kind = .verdict) :
    v'.anonymous = v.anonymous := by
  rw [← h] at hk
  rw [← h, Record.anonymous, Record.anonymous, if_pos hk, if_pos hk]

/-- The runs of two such logs end in the same state. -/
theorem Replays.state_eq (h : Replays P rules L s) {s' : State} (h' : Replays P rules L' s')
    (hmap : L.map Record.anonymous = L'.map Record.anonymous) : s = s' := by
  induction h generalizing L' s' with
  | nil =>
    obtain rfl : L' = [] := by simpa using hmap.symm
    exact Replays.nil.unique h'
  | @snoc L s t r v _ hstep ih =>
    cases h' with
    | nil => simp at hmap
    | @snoc L' s₀ _ r' v' hrun' hstep' =>
      rw [List.map_append, List.map_append] at hmap
      obtain ⟨hpre, hpair⟩ := List.append_inj' hmap rfl
      simp only [List.map_cons, List.map_nil, List.cons.injEq, and_true] at hpair
      obtain rfl := ih hrun' hpre
      obtain rfl := Record.eq_of_anonymous_eq hstep.subject hpair.1
      have hdata := congrArg Record.data hpair.2
      have htime := congrArg Record.time hpair.2
      simp only [Record.anonymous_data, Record.anonymous_time] at hdata htime
      have hfold := hstep.applyRecord_eq hstep.judged
      rw [htime] at hfold
      exact Option.some.inj (hfold.symm.trans (hstep'.applyRecord_eq (hdata ▸ hstep.judged)))

/-- The envelope checks read neither the id nor the author's id of a verdict, but recompute the
former. -/
theorem Platform.ValidVerdict.of_anonymous_eq {subject : Record}
    (h : P.ValidVerdict rules subject v) (hk : v.kind = .verdict)
    (hv : v.anonymous = v'.anonymous) (hid : P.computeId v' = some v'.id) :
    P.ValidVerdict rules subject v' := by
  have hk' : v'.kind = .verdict := by rw [← v'.anonymous_kind, ← hv, v.anonymous_kind, hk]
  simp only [Record.anonymous, hk, hk', if_true, Record.mk.injEq, Author.mk.injEq, true_and] at hv
  obtain ⟨hspace, hthread, -, ⟨htype, hsig⟩, hschema, hdata, hrefs, hevidence⟩ := hv
  exact ⟨hid, hschema ▸ h.schema, htype ▸ h.authorType, hsig ▸ h.unsigned, hspace ▸ h.rulesSpace,
    hspace ▸ h.space, hthread ▸ h.thread, hevidence ▸ h.evidence, hdata ▸ h.data, hrefs ▸ h.refs⟩

/-- One round over the one log is a round over the other, when the subject is judged alike. -/
theorem PairStep.transfer {s' : State} (hstep : PairStep P rules L s r v s')
    (hmap : L.map Record.anonymous = L'.map Record.anonymous)
    (hv : v.anonymous = v'.anonymous) (hid : P.computeId v' = some v'.id)
    (hfind : (priorView (L ++ [r])).find r.id = some r)
    (hfind' : (priorView (L' ++ [r])).find r.id = some r)
    (hcheck : P.checkRecord rules (priorView (L' ++ [r])) s r =
      P.checkRecord rules (priorView (L ++ [r])) s r) :
    PairStep P rules L' s r v' s' := by
  have hk' : v'.kind = .verdict := by
    rw [← v'.anonymous_kind, ← hv, v.anonymous_kind, hstep.verdict]
  have hdata : v.data = v'.data := by simpa using congrArg Record.data hv
  have htime : v.time = v'.time := by simpa using congrArg Record.time hv
  have hrefs : v.refs = v'.refs := by simpa using congrArg Record.refs hv
  have hunjudged : (priorView (L' ++ [r])).hasVerdictFor r.id = false := by
    have hany (M : List Record) : (M.map Record.anonymous).any (fun x => x.judges r.id) =
        M.any (fun x => x.judges r.id) := by simp [List.any_map, Function.comp_def]
    show (L' ++ [r]).any (fun x => x.judges r.id) = false
    rw [List.any_append, ← hany L', ← hmap, hany L, hstep.unjudged]
    simp [hstep.subject_judges]
  obtain ⟨subject, id, hsub, hvalid, hkind, -⟩ :=
    Platform.checkVerdictRecord_eq_none.mp hstep.envelope
  obtain rfl : id = r.id := by simpa [hstep.refs] using hvalid.refs.symm
  obtain rfl : r = subject := Option.some.inj (hfind.symm.trans hsub)
  refine ⟨hkind, hk', ?_, hrefs ▸ hstep.cause, ?_, ?_⟩
  · exact Platform.checkVerdictRecord_eq_none.mpr
      ⟨r, r.id, hfind', hvalid.of_anonymous_eq hstep.verdict hv hid, hkind, hunjudged⟩
  · rw [← hdata, hcheck, hstep.judged]
  · rw [← htime, hcheck, hstep.folded]

/-- An accepted log stays accepted when the authors of its verdicts change, their ids are
recomputed, and every subject is judged as before. -/
theorem Verified.transfer (h : Verified P rules L s)
    (hmap : L.map Record.anonymous = L'.map Record.anonymous)
    (hids : ∀ x ∈ L', P.computeId x = some x.id)
    (hdist : ∀ x ∈ L ++ L', ∀ y ∈ L ++ L', x.id = y.id → x = y)
    (hcheck : ∀ {M M' : List Record} {r : Record} {t : State}, M ++ [r] <+: L → M' ++ [r] <+: L' →
      M.length = M'.length → r.kind ≠ .verdict → P.buildStateUnchecked M = some t →
      P.checkRecord rules (priorView (M' ++ [r])) t r =
        P.checkRecord rules (priorView (M ++ [r])) t r) :
    Verified P rules L' s := by
  induction h using Verified.rec_snoc generalizing L' with
  | nil =>
    obtain rfl : L' = [] := by simpa using hmap.symm
    exact Verified.nil
  | @snoc L t r v s' hL hall hstep ih =>
    rw [List.map_append] at hmap
    obtain ⟨M', pair, rfl, hpre, hpair⟩ := List.map_eq_append_iff.mp hmap.symm
    obtain ⟨r', v', rfl⟩ : ∃ r' v', pair = [r', v'] := List.length_eq_two.mp (by
      simpa using congrArg List.length hpair)
    simp only [List.map_cons, List.map_nil, List.cons.injEq, and_true] at hpair
    obtain rfl := Record.eq_of_anonymous_eq hstep.subject hpair.1.symm
    have hlen : L.length = M'.length := by simpa using congrArg List.length hpre.symm
    have hM' : Verified P rules M' t := by
      refine ih hpre.symm (fun x hx => hids x (by simp [hx]))
        (fun x hx y hy => hdist x ?_ y ?_) fun hp hp' => hcheck (hp.trans (List.prefix_append _ _))
          (hp'.trans (List.prefix_append _ _))
      · simp only [List.mem_append] at hx ⊢
        exact hx.imp .inl .inl
      · simp only [List.mem_append] at hy ⊢
        exact hy.imp .inl .inl
    have htime : v'.time = v.time := by simpa using congrArg Record.time hpair.2
    obtain ⟨-, -, htr, htv, hir, -, -⟩ := Verified.snoc_iff.mp hall
    refine Verified.snoc_iff.mpr ⟨t, hM', hlen ▸ htr, by rw [htime, htv, hlen], hir,
      hids v' (by simp), hstep.transfer hpre.symm hpair.2.symm (hids v' (by simp)) ?_ ?_ ?_⟩
    · refine find_self (by simp) fun y hy heq => hdist y ?_ r (by simp) heq
      simp only [List.mem_append, List.mem_singleton] at hy
      simpa using hy.elim (fun h => .inl h) fun h => .inr (.inl h)
    · refine find_self (by simp) fun y hy heq => hdist y ?_ r (by simp) heq
      simp only [List.mem_append, List.mem_singleton] at hy
      simpa using hy.elim (fun h => .inr (.inr (.inr (.inl h)))) fun h => .inr (.inl h)
    · exact hcheck ⟨[v], by simp⟩ ⟨[v'], by simp⟩ hlen hstep.subject hL.run.build

/-! ## One record replaced -/

section Edit

variable {i : Nat} {r' : Record}

theorem mem_of_mem_set {x : Record} (hx : x ∈ L ++ L.set i r') : x ∈ r' :: L := by
  rcases List.mem_append.mp hx with hx | hx
  · exact List.mem_cons_of_mem _ hx
  · rcases List.mem_or_eq_of_mem_set hx with hx | rfl
    · exact List.mem_cons_of_mem _ hx
    · exact List.mem_cons_self

/-- The edit spares the subjects, and of a verdict it can only change the author's id. -/
theorem Verified.edited (h : Verified P rules L s) {s' : State}
    (h' : Verified P rules (L.set i r') s') (hi : i < L.length) (hne : r' ≠ L[i])
    (hinj : P.CollisionFree ((r' :: L).filterMap P.canonicalIdForm)) :
    L[i].kind = .verdict ∧ SameButAuthorId L[i] r' := by
  have hi' : i < (L.set i r').length := by simpa using hi
  have hself : (L.set i r')[i] = r' := List.getElem_set_self hi'
  obtain ⟨n, hn⟩ := h.run.even
  obtain ⟨k, rfl | rfl⟩ : ∃ k, i = 2 * k ∨ i = 2 * k + 1 := ⟨i / 2, by omega⟩
  · -- the verdict names the subject by its id, and the id is that of its content
    obtain ⟨t, t₁, -, hstep, -⟩ := h.pair_at (k := k) (by omega)
    obtain ⟨t', t₁', -, hstep', -⟩ := h'.pair_at (k := k) (by simp; omega)
    have hrefs := hstep'.refs
    rw [List.getElem_set_ne (by omega), hstep.refs, hself] at hrefs
    have hid : r'.id = L[2 * k].id := by simpa using hrefs.symm
    refine absurd (eq_of_id_eq_of_collisionFree hinj ?_ ?_ ?_ (h.ids _ (List.getElem_mem _)) hid) hne
    · exact fun form hf => List.mem_filterMap.mpr ⟨r', by simp, hf⟩
    · exact fun form hf => List.mem_filterMap.mpr ⟨L[2 * k], by simp, hf⟩
    · exact hself ▸ h'.ids _ (List.getElem_mem hi')
  · obtain ⟨t, t₁, ht, hstep, -⟩ := h.pair_at hi
    obtain ⟨t', t₁', ht', hstep', -⟩ := h'.pair_at hi'
    have htake : (L.set (2 * k + 1) r').take (2 * k) = L.take (2 * k) := by
      rw [List.take_set_of_le (by omega)]
    rw [htake, List.getElem_set_ne (by omega), hself] at hstep'
    rw [htake] at ht'
    cases ht.run.unique ht'.run
    obtain ⟨x, id, hx, hv, -, -⟩ := Platform.checkVerdictRecord_eq_none.mp hstep.envelope
    obtain ⟨x', id', hx', hv', -, -⟩ := Platform.checkVerdictRecord_eq_none.mp hstep'.envelope
    have hid : id = L[2 * k].id := by simpa [hstep.refs] using hv.refs.symm
    have hid' : id' = L[2 * k].id := by simpa [hstep'.refs] using hv'.refs.symm
    subst hid hid'
    cases hx.symm.trans hx'
    have htime : L[2 * k + 1].time = r'.time := by
      have h₁ := h.time_eq hi
      have h₂ := h'.time_eq hi'
      rw [hself] at h₂
      exact UInt64.toNat_inj.mp (h₁.trans h₂.symm)
    exact ⟨hstep.verdict, sameButAuthorId_of_valid hv hv' hstep.verdict hstep'.verdict htime
      hstep.judged hstep'.judged⟩

theorem map_anonymous_set (hi : i < L.length) (hk : L[i].kind = .verdict)
    (hsame : SameButAuthorId L[i] r') :
    L.map Record.anonymous = (L.set i r').map Record.anonymous := by
  have hi' : i < (L.map Record.anonymous).length := by simpa using hi
  rw [List.map_set, hsame.anonymous_eq hk, ← List.getElem_map Record.anonymous (h := hi'),
    List.set_getElem_self]

/-- Of two accepted logs that differ in one record, the later subjects are judged alike. -/
theorem Verified.judged_alike (h : Verified P rules L s) {s' : State}
    (h' : Verified P rules (L.set i r') s')
    (hmap : L.map Record.anonymous = (L.set i r').map Record.anonymous) {j : Nat}
    (hj : j < L.length) (hij : i < j) (hkind : L[j].kind ≠ .verdict) {t : State}
    (hbuild : P.buildStateUnchecked (L.take j) = some t) :
    P.checkRecord rules (priorView ((L.set i r').take (j + 1))) t L[j] =
      P.checkRecord rules (priorView (L.take (j + 1))) t L[j] := by
  obtain ⟨n, hn⟩ := h.run.even
  obtain ⟨k, rfl | rfl⟩ : ∃ k, j = 2 * k ∨ j = 2 * k + 1 := ⟨j / 2, by omega⟩
  · obtain ⟨t₀, t₁, ht, hstep, -⟩ := h.pair_at (k := k) (by omega)
    obtain ⟨t', t₁', ht', hstep', -⟩ := h'.pair_at (k := k) (by simp; omega)
    obtain rfl : t₀ = t := Option.some.inj (ht.run.build.symm.trans hbuild)
    obtain rfl : t₀ = t' := by
      refine ht.run.state_eq ht'.run ?_
      rw [List.map_take, List.map_take, hmap]
    have hjudged := hstep'.judged
    rw [List.getElem_set_ne (by omega), List.getElem_set_ne (by omega), hstep.judged] at hjudged
    rw [List.take_succ_eq_append_getElem hj, List.take_succ_eq_append_getElem (by simpa using hj),
      List.getElem_set_ne (by omega)]
    exact (verdictOf_inj (Option.some.inj hjudged)).symm
  · obtain ⟨_, _, _, hstep, _⟩ := h.pair_at hj
    exact absurd hstep.verdict hkind

theorem Platform.UndetectedEdit.accepts {hi : i < L.length}
    (hedit : P.UndetectedEdit rules L i hi r') (h : Verified P rules L s)
    (hinj : P.CollisionFree ((r' :: L).filterMap P.canonicalIdForm)) :
    Verified P rules (L.set i r') s := by
  have hids {x : Record} (hx : x ∈ r' :: L) : P.computeId x = some x.id := by
    rcases List.mem_cons.mp hx with rfl | hx
    · exact hedit.id
    · exact h.ids x hx
  have hform {x : Record} (hx : x ∈ r' :: L) (form : Bytes) (hf : P.canonicalIdForm x = some form) :
      form ∈ (r' :: L).filterMap P.canonicalIdForm := List.mem_filterMap.mpr ⟨x, hx, hf⟩
  refine h.transfer (map_anonymous_set hi hedit.verdict hedit.same)
    (fun x hx => hids (mem_of_mem_set (List.mem_append_right _ hx)))
    (fun x hx y hy heq => ?_) fun {M M' r t} hp hp' hlen hk hbuild => ?_
  · have hx := mem_of_mem_set hx
    have hy := mem_of_mem_set hy
    exact eq_of_id_eq_of_collisionFree hinj (hform hx) (hform hy) (hids hx) (hids hy) heq
  · have hM := List.prefix_iff_eq_take.mp hp
    have hM' := List.prefix_iff_eq_take.mp hp'
    simp only [List.length_append, List.length_singleton, ← hlen] at hM hM'
    have hj : M.length < L.length := by
      have := hp.length_le
      simp only [List.length_append, List.length_singleton] at this
      omega
    rw [List.take_succ_eq_append_getElem hj] at hM
    obtain ⟨htake, hr⟩ := List.append_inj' hM rfl
    have hr : r = L[M.length] := by simpa using hr
    by_cases hij : i < M.length
    · have := hedit.later M.length hj hij (hr ▸ hk) t (htake ▸ hbuild)
      rwa [← hr, ← hM', List.take_succ_eq_append_getElem hj, ← htake, ← hr] at this
    · -- the edit lies behind this prefix
      have hne : i ≠ M.length := by
        rintro rfl
        exact hk (hr ▸ hedit.verdict)
      rw [hM', List.take_set_of_le (by omega), List.take_succ_eq_append_getElem hj, ← htake, ← hr]

/-- **An edit of one record is detected exactly when** it is not one that changes the author's id of
a verdict alone, to which every later subject is indifferent. -/
theorem single_edit_rejected_iff (h : P.Accepts rules L) (hi : i < L.length) (hne : r' ≠ L[i])
    (hinj : P.CollisionFree ((r' :: L).filterMap P.canonicalIdForm)) :
    ¬P.Accepts rules (L.set i r') ↔ ¬P.UndetectedEdit rules L i hi r' := by
  obtain ⟨s, hv⟩ := accepts_iff.mp h
  rw [not_iff_not]
  constructor
  · intro h'
    obtain ⟨s', hv'⟩ := accepts_iff.mp h'
    obtain ⟨hk, hsame⟩ := hv.edited hv' hi hne hinj
    have hmap := map_anonymous_set hi hk hsame
    exact ⟨hk, hsame, hv'.ids r' (List.mem_set hi r'),
      fun j hj hij hkind t => hv.judged_alike hv' hmap hj hij hkind⟩
  · exact fun hedit => accepts_iff.mpr ⟨s, hedit.accepts hv hinj⟩

end Edit

/-! ## An edit that goes through -/

/-- The verdict of the sample round under another author, with its id recomputed. -/
def renamedVerdict : Record :=
  { acceptance 0xc378cb42b9200a3b74e5dc7a5a3793917c3ca37d0072bd76c0da1164ed53423f sampleRequest with
    author := ⟨"other", .verifier, none⟩ }

theorem renamedVerdict_collisionFree :
    reference.CollisionFree ((renamedVerdict :: sampleRound).filterMap reference.canonicalIdForm) := by
  obtain ⟨s, hv⟩ := accepts_iff.mp sampleRound_accepts
  have hid : reference.computeId renamedVerdict = some renamedVerdict.id := by decide +kernel
  refine collisionFree_of_nodup ?_
  rw [map_sha256_forms fun r hr => (List.mem_cons.mp hr).elim (fun h => h ▸ hid) (hv.ids r)]
  decide +kernel

/-- **An edit that `verify_log` does not see.** -/
theorem renamedVerdict_accepted : reference.Accepts sampleRules sampleRound ∧
    reference.CollisionFree ((renamedVerdict :: sampleRound).filterMap reference.canonicalIdForm) ∧
    sampleRound[1] ≠ renamedVerdict ∧
    reference.Accepts sampleRules (sampleRound.set 1 renamedVerdict) :=
  ⟨sampleRound_accepts, renamedVerdict_collisionFree, by decide +kernel, by decide +kernel⟩

theorem renamedVerdict_undetected :
    ¬reference.Accepts sampleRules (sampleRound.set 1 renamedVerdict) ↔
      ¬reference.UndetectedEdit sampleRules sampleRound 1 (by decide) renamedVerdict :=
  single_edit_rejected_iff sampleRound_accepts (by decide) (by decide +kernel)
    renamedVerdict_collisionFree

end Bellbook
