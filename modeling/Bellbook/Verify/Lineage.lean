import Mathlib.Data.Finset.Card
import Bellbook.Verify.Authority

/-!
# The lineage of an accepted log

* `ReplayEnd` is what standing is a function of: the accepted records and the retracted and tainted
  ids at the end of a replay. `SoundSelection`, `Restores` and `SoundCandidate` are the notions of
  SPEC 7.2 over it, in terms of records.
* What the verifier checked of an accepted Candidate or Selection gives each of their lineage edges
  an accepted, earlier target (`Verified.candidate_form`, `Verified.selection_form`), so the lineage
  is acyclic.
* The chain walk finds exactly the Replace chains, so the replacers of a Selection are what restores
  it (`Verified.mem_replacers`), for every order in which the hash map is iterated.
-/

namespace Bellbook

open Std

/-! ## The recursion over records -/

/-- What the standing of a line depends on. -/
structure ReplayEnd where
  accepted : List Record
  retracted : IdSet
  tainted : IdSet

namespace ReplayEnd

variable (E : ReplayEnd) (P : Platform)

/-- An accepted Selection. -/
def Selects (x : Record) : Prop := x ∈ E.accepted ∧ x.kind = .selection

/-- An accepted Selection that is retracted or tainted. -/
def UnsoundSelection (x : Record) : Prop :=
  E.Selects x ∧ (x.id ∈ E.retracted ∨ x.id ∈ E.tainted)

/-- An accepted Selection that is neither retracted nor tainted. -/
def SoundSelection (x : Record) : Prop :=
  E.Selects x ∧ ¬(x.id ∈ E.retracted ∨ x.id ∈ E.tainted)

/-- One hop of a Replace chain between accepted Selections. -/
def Replaces (x y : Record) : Prop :=
  E.Selects x ∧ E.Selects y ∧ findReplaceRef x.refs = some y.id

/-- A sound Selection with a Replace chain of one or more hops to `y`. -/
def Restores (x y : Record) : Prop := E.SoundSelection x ∧ Relation.TransGen E.Replaces x y

/-- The anchor is sound, or a sound Selection that replaces it selects the parent. -/
def AnchorSound (anchor : Record) (parent : RecordId) : Prop :=
  E.SoundSelection anchor ∨ ∃ x, E.Restores x anchor ∧
    ∃ d, P.decode SelectionData x.data = some d ∧ parent ∈ d.outcome.winners

/-- An accepted Candidate with its payload. -/
def Proposes (c : Record) (d : CandidateData) : Prop :=
  c ∈ E.accepted ∧ c.kind = .candidate ∧ P.decode CandidateData c.data = some d

/-- The standing recursion. A retracted Candidate is never sound. -/
inductive SoundCandidate : Record → Prop
  | root {c : Record} {d : CandidateData} (hc : E.Proposes P c d) (hr : c.id ∉ E.retracted)
      (hb : d.basis = .root) : SoundCandidate c
  | continuation {c anchor parent : Record} {d dp : CandidateData} (hc : E.Proposes P c d)
      (hr : c.id ∉ E.retracted) (hb : d.basis = .continuation) (ha : E.Selects anchor)
      (hcause : refTargets .cause c.refs = [anchor.id]) (hp : E.Proposes P parent dp)
      (hparent : d.parent = some parent.id) (hanchor : E.AnchorSound P anchor parent.id)
      (hsound : SoundCandidate parent) : SoundCandidate c
  | derivation {c : Record} {d : CandidateData} (hc : E.Proposes P c d) (hr : c.id ∉ E.retracted)
      (hb : d.basis = .derivation)
      (hall : ∀ t dt, E.Proposes P t dt → t.id ∈ refTargets .cause c.refs → SoundCandidate t) :
      SoundCandidate c

end ReplayEnd

/-- What the standing of an accepted log is derived from. -/
def Platform.replayEnd (P : Platform) (L : List Record) (s : State) : ReplayEnd :=
  ⟨P.accepted L, s.retractedRecords, s.taintedRecords⟩

variable {P : Platform} {rules : VerifierRules} {L : List Record} {s : State}

/-! ## What the verifier checked of a line -/

/-- The lineage edges of an accepted Candidate. -/
structure CandidateForm (P : Platform) (L : List Record) (c : Record) (d : CandidateData) : Prop where
  payload : P.decode CandidateData c.data = some d
  continuation : d.basis = .continuation → ∃ anchor ∈ P.accepted L, anchor.kind = .selection ∧
    refTargets .cause c.refs = [anchor.id] ∧ ∃ parent ∈ P.accepted L, parent.kind = .candidate ∧
      d.parent = some parent.id ∧ parent.time.toNat < c.time.toNat
  derivation : d.basis = .derivation → ∀ t ∈ refTargets .cause c.refs, ∃ x ∈ P.accepted L,
    x.id = t ∧ x.time.toNat < c.time.toNat

/-- The lookups of a list, one by one. -/
theorem forall₂_mapM {α β : Type} {f : α → Option β} {l : List α} {r : List β}
    (h : l.mapM f = some r) : List.Forall₂ (fun a b => f a = some b) l r := by
  induction l generalizing r with
  | nil =>
    cases h
    exact .nil
  | cons a l ih =>
    simp only [List.mapM_cons, Option.bind_eq_bind, Option.pure_def, Option.bind_eq_some_iff,
      Option.some.injEq] at h
    obtain ⟨b, hb, rest, hrest, rfl⟩ := h
    exact .cons hb (ih hrest)

theorem exists_of_forall₂ {α β : Type} {R : α → β → Prop} {l : List α} {r : List β}
    (h : List.Forall₂ R l r) {a : α} (ha : a ∈ l) : ∃ b ∈ r, R a b := by
  induction h with
  | nil => simp at ha
  | @cons x y l r hxy _ ih =>
    rcases List.mem_cons.mp ha with rfl | ha
    · exact ⟨y, List.mem_cons_self, hxy⟩
    · obtain ⟨b, hb, hab⟩ := ih ha
      exact ⟨b, List.mem_cons_of_mem _ hb, hab⟩

section Forms

variable (h : Verified P rules L s) (hs : P.HashSound L)
include h hs

/-- A record found and accepted before position `i`. -/
theorem Verified.found_before {i : Nat} (hi : i < L.length) {t : State}
    (ht : Verified P rules (L.take i) t) {id : RecordId} {x : Record}
    (hfind : (priorView (L.take i)).find id = some x) (hacc : x.id ∈ t.acceptedRecords) :
    x ∈ P.accepted L ∧ x.id = id ∧ x.time.toNat < L[i].time.toNat := by
  obtain ⟨hmem, hid⟩ := find_mem hfind
  have hin := ht.accepted_of_mem (hs.mono (List.take_subset _ _)) hmem hacc
  refine ⟨accepted_mono ht.run (List.take_prefix _ _) hin, hid, ?_⟩
  have hle := ht.time_lt hmem
  rw [h.time_eq hi]
  simp only [List.length_take] at hle
  omega

theorem Verified.candidate_form {c : Record} (hc : c ∈ P.accepted L) (hk : c.kind = .candidate) :
    ∃ d, CandidateForm P L c d := by
  obtain ⟨i, hi, rfl⟩ := List.mem_iff_getElem.mp (mem_of_mem_accepted hc)
  obtain ⟨t, ht, hcheck⟩ := h.accepted_at hs hi hc
  have hkind := (checkSubject_passes hcheck).kind
  simp only [Platform.checkKindSpecific, hk, Platform.checkCandidate, orReject_eq_none,
    orElse_none_iff, rejectIf_eq_none, Bool.not_eq_true] at hkind
  obtain ⟨d, hd, -, -, hparent, causes, hcauses, hbasis⟩ := hkind
  refine ⟨d, hd, fun hb => ?_, fun hb target htarget => ?_⟩
  · -- one Cause, an accepted Selection; the parent resolves to an accepted Candidate
    simp only [Platform.checkBasis, hb] at hbasis
    split at hbasis
    · next anchor =>
      simp only [orElse_none_iff, rejectIf_eq_none, not_or, not_not, orReject_eq_none] at hbasis
      obtain ⟨⟨hak, hacc⟩, -, pid, hpid, -⟩ := hbasis
      have hfind : refTargets .cause L[i].refs = [anchor.id] ∧
          (priorView (L.take i)).find anchor.id = some anchor := by
        have hall := forall₂_mapM hcauses
        generalize refTargets .cause L[i].refs = targets at hall ⊢
        cases hall with
        | cons hx hrest =>
          cases hrest
          obtain ⟨-, rfl⟩ := find_mem hx
          exact ⟨rfl, hx⟩
      obtain ⟨hanchor, -, -⟩ := h.found_before hs hi ht hfind.2 hacc
      rw [hpid, Option.any_some, Option.isNone_eq_false_iff, Option.isSome_iff_exists] at hparent
      obtain ⟨parent, hres⟩ := hparent
      rw [resolveCandidate, Option.filter_eq_some_iff] at hres
      obtain ⟨hpfind, hprops⟩ := hres
      simp only [Bool.and_eq_true, decide_eq_true_eq] at hprops
      obtain ⟨hp, rfl, hlt⟩ := h.found_before hs hi ht hpfind hprops.2
      exact ⟨anchor, hanchor, hak, hfind.1, parent, hp, hprops.1.2, hpid, hlt⟩
    · cases hbasis
  · -- every Cause is an accepted record
    simp only [Platform.checkBasis, hb, orElse_none_iff, rejectIf_eq_none,
      List.findSome?_eq_none_iff] at hbasis
    obtain ⟨x, hx, hfind⟩ := exists_of_forall₂ (forall₂_mapM hcauses) htarget
    have hacc := (hbasis.2 x hx).1
    rw [not_not] at hacc
    obtain ⟨hin, hid, hlt⟩ := h.found_before hs hi ht hfind hacc
    exact ⟨x, hin, hid, hlt⟩

omit h hs in
theorem findReplaceRef_targets {refs : List Ref} {id : RecordId}
    (h : refTargets .replace refs = [id]) : findReplaceRef refs = some id := by
  obtain ⟨ref, href, htype, rfl⟩ := mem_refTargets.mp (h ▸ List.mem_cons_self)
  cases hfind : findReplaceRef refs with
  | none =>
    simp only [findReplaceRef, Option.map_eq_none_iff, List.find?_eq_none] at hfind
    exact absurd htype (by simpa using hfind ref href)
  | some id' =>
    have := mem_refTargets_of_findReplaceRef hfind
    rw [h, List.mem_singleton] at this
    rw [this]

theorem Verified.selection_form {x : Record} (hx : x ∈ P.accepted L) (hk : x.kind = .selection) :
    (∃ d, P.decode SelectionData x.data = some d) ∧
      ∀ id, findReplaceRef x.refs = some id → ∃ y ∈ P.accepted L, y.id = id ∧
        y.kind = .selection ∧ y.time.toNat < x.time.toNat := by
  obtain ⟨i, hi, rfl⟩ := List.mem_iff_getElem.mp (mem_of_mem_accepted hx)
  obtain ⟨t, ht, hcheck⟩ := h.accepted_at hs hi hx
  have hpass := checkSubject_passes hcheck
  constructor
  · have hkind := hpass.kind
    simp only [Platform.checkKindSpecific, hk, Platform.checkSelection, orReject_eq_none] at hkind
    obtain ⟨d, hd, -⟩ := hkind
    exact ⟨d, hd⟩
  · intro id hid
    have hrep := hpass.replacement
    have htarget := mem_refTargets_of_findReplaceRef hid
    unfold Platform.checkReplacement at hrep
    split at hrep
    · next hnil => simp [hnil] at htarget
    · next target hone =>
      rw [findReplaceRef_targets hone] at hid
      cases hid
      simp only [orElse_none_iff, rejectIf_eq_none, orReject_eq_none, not_not, hk] at hrep
      obtain ⟨-, y, hfind, hacc, hyk, -⟩ := hrep
      obtain ⟨hy, hyid, hlt⟩ := h.found_before hs hi ht hfind hacc
      exact ⟨y, hy, hyid, hyk, hlt⟩
    · cases hrep

/-- What a Selection considers, and so what it chooses, are accepted Candidates. -/
theorem Verified.considered_accepted {x : Record} (hx : x ∈ P.accepted L) (hk : x.kind = .selection)
    {d : SelectionData} (hd : P.decode SelectionData x.data = some d) :
    (∀ c ∈ d.considered, ∃ y ∈ P.accepted L, y.id = c ∧ y.kind = .candidate) ∧
      ∀ c ∈ d.outcome.winners, c ∈ d.considered := by
  obtain ⟨i, hi, rfl⟩ := List.mem_iff_getElem.mp (mem_of_mem_accepted hx)
  obtain ⟨t, ht, hcheck⟩ := h.accepted_at hs hi hx
  have hkind := (checkSubject_passes hcheck).kind
  simp only [Platform.checkKindSpecific, hk, Platform.checkSelection, orReject_eq_none,
    orElse_none_iff, List.findSome?_eq_none_iff] at hkind
  obtain ⟨d', hd', -, -, hconsidered, -, houtcome, -⟩ := hkind
  obtain rfl : d' = d := Option.some.inj (hd'.symm.trans hd)
  constructor
  · intro c hc
    obtain ⟨y, hy, -⟩ := hconsidered c hc
    rw [resolveCandidate, Option.filter_eq_some_iff] at hy
    obtain ⟨hfind, hprops⟩ := hy
    simp only [Bool.and_eq_true, decide_eq_true_eq] at hprops
    obtain ⟨hin, hid, -⟩ := h.found_before hs hi ht hfind hprops.2
    exact ⟨y, hin, hid, hprops.1.2⟩
  · intro c hc
    unfold Platform.checkOutcome at houtcome
    split at houtcome
    · next candidates hout =>
      simp only [orElse_none_iff, rejectIf_eq_none, not_or, Bool.not_eq_false, List.all_eq_true,
        decide_eq_true_eq] at houtcome
      rw [hout] at hc
      exact houtcome.1.2.2 c hc
    · next hout =>
      rw [hout] at hc
      cases hc

end Forms

/-! ## The tables of the derivation -/

namespace Platform

variable (P : Platform)

/-- The entry of an accepted Candidate. -/
def candidateEntry (s : State) (r : Record) : Option CandInfo :=
  if r.id ∈ s.acceptedRecords ∧ r.kind = .candidate then
    (P.decode CandidateData r.data).map fun d => ⟨d.basis, d.parent, refTargets .cause r.refs⟩
  else none

/-- The entry of an accepted Selection. -/
def selectionEntry (s : State) (r : Record) : Option SelInfo :=
  if r.id ∈ s.acceptedRecords ∧ r.kind = .selection then
    (P.decode SelectionData r.data).map fun d =>
      ⟨idSetOf d.outcome.winners, findReplaceRef r.refs⟩
  else none

/-- The two tables of `derive_standing`. -/
def lineage (L : List Record) (s : State) : Lineage := L.foldl (P.addLineage s) {}

end Platform

theorem addLineage_eq (l : Lineage) (r : Record) : P.addLineage s l r =
    ⟨insertVal l.candidates r.id (P.candidateEntry s r),
      insertVal l.selections r.id (P.selectionEntry s r)⟩ := by
  unfold Platform.addLineage Platform.candidateEntry Platform.selectionEntry
  by_cases hacc : r.id ∈ s.acceptedRecords
  · cases hk : r.kind <;> simp only [hacc, not_true, if_false, true_and, reduceCtorEq, if_true,
      insertVal]
    case candidate => cases P.decode CandidateData r.data <;> rfl
    case selection => cases P.decode SelectionData r.data <;> rfl
  · simp [hacc, insertVal]

/-- A table filled from records with ids of their own. -/
theorem getElem?_foldl_insertVal {β : Type} {f : Record → Option β} {M : List Record}
    (huniq : ∀ a ∈ M, ∀ b ∈ M, a.id = b.id → a = b) {id : RecordId} {v : β} :
    (M.foldl (fun m r => insertVal m r.id (f r)) (∅ : IdMap β))[id]? = some v ↔
      ∃ r ∈ M, r.id = id ∧ f r = some v := by
  induction M using List.reverseRecOn with
  | nil => simp
  | append_singleton M r ih =>
    have ih := ih fun a ha b hb => huniq a (List.mem_append_left _ ha) b (List.mem_append_left _ hb)
    have hself : ∀ a ∈ M, a.id = r.id → a = r := fun a ha =>
      huniq a (List.mem_append_left _ ha) r (by simp)
    rw [List.foldl_append, List.foldl_cons, List.foldl_nil]
    have hsplit : (∃ x ∈ M ++ [r], x.id = id ∧ f x = some v) ↔
        (∃ x ∈ M, x.id = id ∧ f x = some v) ∨ (r.id = id ∧ f r = some v) := by
      simp [or_and_right, exists_or]
    rw [hsplit, ← ih]
    unfold insertVal
    split
    · next w hw =>
      simp only [ExtTreeMap.getElem?_insert, LawfulEqOrd.compare_eq_iff_eq]
      by_cases hid : r.id = id
      · subst hid
        simp only [if_true, hw, true_and]
        refine ⟨.inr, fun h => h.elim (fun h => ?_) fun h => h⟩
        obtain ⟨x, hx, hxid, hfx⟩ := ih.mp h
        rwa [hself x hx hxid, hw] at hfx
      · simp [hid]
    · next hnone => simp [hnone]

theorem lineage_candidates_eq (M : List Record) :
    (P.lineage M s).candidates = M.foldl (fun m r => insertVal m r.id (P.candidateEntry s r)) ∅ := by
  unfold Platform.lineage
  induction M using List.reverseRecOn with
  | nil => rfl
  | append_singleton M r ih => simp only [List.foldl_append, List.foldl_cons, List.foldl_nil,
      addLineage_eq, ih]

theorem lineage_selections_eq (M : List Record) :
    (P.lineage M s).selections = M.foldl (fun m r => insertVal m r.id (P.selectionEntry s r)) ∅ := by
  unfold Platform.lineage
  induction M using List.reverseRecOn with
  | nil => rfl
  | append_singleton M r ih => simp only [List.foldl_append, List.foldl_cons, List.foldl_nil,
      addLineage_eq, ih]

section Tables

variable (h : Verified P rules L s) (hs : P.HashSound L)
include h hs

theorem Verified.lineage_candidates {id : RecordId} {info : CandInfo} :
    (P.lineage L s).candidates[id]? = some info ↔ ∃ c d, (P.replayEnd L s).Proposes P c d ∧
      c.id = id ∧ info = ⟨d.basis, d.parent, refTargets .cause c.refs⟩ := by
  rw [lineage_candidates_eq, getElem?_foldl_insertVal fun a ha b hb => h.eq_of_id_eq hs ha hb]
  constructor
  · rintro ⟨r, hr, hid, hentry⟩
    unfold Platform.candidateEntry at hentry
    split at hentry
    · next hacc =>
      obtain ⟨d, hd, rfl⟩ := Option.map_eq_some_iff.mp hentry
      exact ⟨r, d, ⟨h.accepted_of_mem hs hr hacc.1, hacc.2, hd⟩, hid, rfl⟩
    · cases hentry
  · rintro ⟨c, d, ⟨hc, hk, hd⟩, hid, rfl⟩
    have hacc : c.id ∈ s.acceptedRecords := h.run.mem_acceptedRecords.mpr ⟨c, hc, rfl⟩
    refine ⟨c, mem_of_mem_accepted hc, hid, ?_⟩
    simp [Platform.candidateEntry, hacc, hk, hd]

theorem Verified.lineage_selections {id : RecordId} {info : SelInfo} :
    (P.lineage L s).selections[id]? = some info ↔ ∃ x d, (P.replayEnd L s).Selects x ∧
      P.decode SelectionData x.data = some d ∧ x.id = id ∧
        info = ⟨idSetOf d.outcome.winners, findReplaceRef x.refs⟩ := by
  rw [lineage_selections_eq, getElem?_foldl_insertVal fun a ha b hb => h.eq_of_id_eq hs ha hb]
  constructor
  · rintro ⟨r, hr, hid, hentry⟩
    unfold Platform.selectionEntry at hentry
    split at hentry
    · next hacc =>
      obtain ⟨d, hd, rfl⟩ := Option.map_eq_some_iff.mp hentry
      exact ⟨r, d, ⟨h.accepted_of_mem hs hr hacc.1, hacc.2⟩, hd, hid, rfl⟩
    · cases hentry
  · rintro ⟨x, d, ⟨hx, hk⟩, hd, hid, rfl⟩
    have hacc : x.id ∈ s.acceptedRecords := h.run.mem_acceptedRecords.mpr ⟨x, hx, rfl⟩
    refine ⟨x, mem_of_mem_accepted hx, hid, ?_⟩
    simp [Platform.selectionEntry, hacc, hk, hd]

end Tables

/-! ## Replace chains -/

section Chain

variable {selections : IdMap SelInfo} {rank : RecordId → Nat}

/-- One hop in the table. -/
def Hop (selections : IdMap SelInfo) (x y : RecordId) : Prop :=
  selections[x]?.bind SelInfo.replaceTarget = some y

/-- Every hop leads to a Selection of the table that ranks lower. -/
def Descends (selections : IdMap SelInfo) (rank : RecordId → Nat) : Prop :=
  ∀ x y, Hop selections x y → y ∈ selections ∧ rank y < rank x

/-- The Selections that rank no higher than `n`. -/
def upTo (selections : IdMap SelInfo) (rank : RecordId → Nat) (n : Nat) : Finset RecordId :=
  selections.keys.toFinset.filter fun k => rank k ≤ n

theorem card_upTo_le (n : Nat) : (upTo selections rank n).card ≤ selections.size :=
  calc (upTo selections rank n).card ≤ selections.keys.toFinset.card := Finset.card_filter_le _ _
    _ ≤ selections.keys.length := List.toFinset_card_le _
    _ = selections.size := ExtTreeMap.length_keys

theorem card_upTo_hop (hdown : Descends selections rank) {x y : RecordId} (hx : x ∈ selections)
    (hxy : Hop selections x y) :
    (upTo selections rank (rank y)).card < (upTo selections rank (rank x)).card := by
  have hlt := (hdown x y hxy).2
  apply Finset.card_lt_card
  rw [Finset.ssubset_iff_of_subset]
  · refine ⟨x, ?_, ?_⟩
    · simp [upTo, hx]
    · simp only [upTo, Finset.mem_filter, not_and, Nat.not_le]
      intro
      exact hlt
  · intro k hk
    simp only [upTo, Finset.mem_filter] at hk ⊢
    exact ⟨hk.1, by omega⟩

theorem reaches_of_mem_replaceChain {guard : Nat} {x y : RecordId}
    (hy : y ∈ replaceChain selections guard (some x)) :
    Relation.ReflTransGen (Hop selections) x y := by
  induction guard generalizing x with
  | zero => simp [replaceChain] at hy
  | succ guard ih =>
    rw [replaceChain, List.mem_cons] at hy
    rcases hy with rfl | hy
    · exact .refl
    · cases hnext : selections[x]?.bind SelInfo.replaceTarget with
      | none =>
        rw [hnext] at hy
        cases guard <;> simp [replaceChain] at hy
      | some z =>
        rw [hnext] at hy
        exact .head hnext (ih hy)

theorem mem_replaceChain_of_reaches (hdown : Descends selections rank) {guard : Nat}
    {x y : RecordId} (hx : x ∈ selections)
    (hguard : (upTo selections rank (rank x)).card ≤ guard)
    (hxy : Relation.ReflTransGen (Hop selections) x y) :
    y ∈ replaceChain selections guard (some x) := by
  induction hxy using Relation.ReflTransGen.head_induction_on generalizing guard with
  | refl =>
    have hpos : 0 < (upTo selections rank (rank y)).card :=
      Finset.card_pos.mpr ⟨y, by simp [upTo, hx]⟩
    cases guard with
    | zero => omega
    | succ guard => exact List.mem_cons_self
  | @head x z hxz hzy ih =>
    have hlt := card_upTo_hop hdown hx hxz
    cases guard with
    | zero => omega
    | succ guard =>
      rw [replaceChain, hxz]
      exact List.mem_cons_of_mem _ (ih (hdown x z hxz).1 (by omega))

/-- A guard that covers the table is never what ends the walk. -/
theorem replaceChain_eq (hdown : Descends selections rank) {guard guard' : Nat} {x : RecordId}
    (hx : x ∈ selections) (hguard : (upTo selections rank (rank x)).card ≤ guard)
    (hguard' : (upTo selections rank (rank x)).card ≤ guard') :
    replaceChain selections guard (some x) = replaceChain selections guard' (some x) := by
  have hpos : 0 < (upTo selections rank (rank x)).card :=
    Finset.card_pos.mpr ⟨x, by simp [upTo, hx]⟩
  induction guard generalizing x guard' with
  | zero => omega
  | succ guard ih =>
    cases guard' with
    | zero => omega
    | succ guard' =>
      rw [replaceChain, replaceChain]
      cases hnext : selections[x]?.bind SelInfo.replaceTarget with
      | none => cases guard <;> cases guard' <;> rfl
      | some z =>
        have hlt := card_upTo_hop hdown hx hnext
        have hz := (hdown x z hnext).1
        have heq : replaceChain selections guard (some z) = replaceChain selections guard' (some z) :=
          ih hz (by omega) (by omega) (Finset.card_pos.mpr ⟨z, by simp [upTo, hz]⟩)
        rw [heq]

end Chain

/-! ## Replacers -/

/-- A sound Selection restores exactly the members of its chain. -/
theorem mem_foldl_insert_id {l : List RecordId} {m : IdMap IdSet} {sel a x : RecordId} :
    x ∈ ((l.foldl (fun m ancestor => m.insert ancestor ((m[ancestor]?.getD ∅).insert sel)) m)[a]?.getD
        ∅) ↔ x ∈ m[a]?.getD ∅ ∨ (a ∈ l ∧ x = sel) := by
  induction l generalizing m with
  | nil => simp
  | cons b l ih =>
    rw [List.foldl_cons, ih]
    simp only [ExtTreeMap.getElem?_insert, LawfulEqOrd.compare_eq_iff_eq, List.mem_cons]
    by_cases hab : b = a
    · subst hab
      rw [if_pos rfl, Option.getD_some, Worklist.mem_insert_iff]
      tauto
    · rw [if_neg hab]
      have : a ≠ b := fun h => hab h.symm
      tauto

theorem mem_addReplacers {selections : IdMap SelInfo} {entries : List (RecordId × SelInfo)}
    {m : IdMap IdSet} {a x : RecordId} :
    x ∈ ((entries.foldl (addReplacer s selections) m)[a]?.getD ∅) ↔
      x ∈ m[a]?.getD ∅ ∨ ∃ info, (x, info) ∈ entries ∧ s.isUnsound x = false ∧
        a ∈ replaceChain selections (selections.size + 1) info.replaceTarget := by
  induction entries generalizing m with
  | nil => simp
  | cons entry entries ih =>
    obtain ⟨sel, info⟩ := entry
    rw [List.foldl_cons, ih]
    unfold addReplacer
    simp only [List.mem_cons, Prod.mk.injEq]
    by_cases hun : s.isUnsound sel = true
    · rw [if_pos hun]
      constructor
      · rintro (h | ⟨i, hi, h⟩)
        · exact .inl h
        · exact .inr ⟨i, .inr hi, h⟩
      · rintro (h | ⟨i, ⟨rfl, rfl⟩ | hi, h⟩)
        · exact .inl h
        · rw [hun] at h
          simp at h
        · exact .inr ⟨i, hi, h⟩
    · rw [if_neg hun, mem_foldl_insert_id]
      rw [Bool.not_eq_true] at hun
      constructor
      · rintro ((h | ⟨ha, rfl⟩) | ⟨i, hi, h⟩)
        · exact .inl h
        · exact .inr ⟨info, .inl ⟨rfl, rfl⟩, hun, ha⟩
        · exact .inr ⟨i, .inr hi, h⟩
      · rintro (h | ⟨i, ⟨rfl, rfl⟩ | hi, h⟩)
        · exact .inl (.inl h)
        · exact .inl (.inr ⟨h.2, rfl⟩)
        · exact .inr ⟨i, hi, h⟩

namespace Platform

variable (P : Platform)

/-- The order in which a hash map is iterated is an order of its entries. -/
def HashOrderPermutes : Prop := ∀ (α : Type) (l : List α), (P.hashOrder α l).Perm l

/-- The replacers of `derive_standing`. -/
def replacers (l : Lineage) (s : State) : IdMap IdSet :=
  (P.hashOrder _ l.selections.toList).foldl (addReplacer s l.selections) ∅

/-- The rank of an accepted record: its time. -/
def rank (L : List Record) (id : RecordId) : Nat :=
  (((P.accepted L).find? fun x => x.id = id).map fun x => x.time.toNat).getD 0

end Platform

theorem Verified.rank_eq (h : Verified P rules L s) {x : Record} (hx : x ∈ P.accepted L) :
    P.rank L x.id = x.time.toNat := by
  have hfind : (P.accepted L).find? (fun y => y.id = x.id) = some x := by
    cases hf : (P.accepted L).find? (fun y => y.id = x.id) with
    | none => simpa using List.find?_eq_none.mp hf x hx
    | some y =>
      have hid : y.id = x.id := by simpa using List.find?_some hf
      rw [h.run.eq_of_accepted_id (List.mem_of_find?_eq_some hf) hx hid]
  rw [Platform.rank, hfind, Option.map_some, Option.getD_some]

section Replacers

variable (h : Verified P rules L s) (hs : P.HashSound L)
include h hs

theorem Verified.hop_iff {x y : RecordId} : Hop (P.lineage L s).selections x y ↔
    ∃ a b, (P.replayEnd L s).Replaces a b ∧ a.id = x ∧ b.id = y := by
  unfold Hop
  rw [Option.bind_eq_some_iff]
  constructor
  · rintro ⟨info, hinfo, htarget⟩
    obtain ⟨a, d, ha, hd, rfl, rfl⟩ := (h.lineage_selections hs).mp hinfo
    obtain ⟨b, hb, rfl, hbk, -⟩ := (h.selection_form hs ha.1 ha.2).2 y htarget
    exact ⟨a, b, ⟨ha, ⟨hb, hbk⟩, htarget⟩, rfl, rfl⟩
  · rintro ⟨a, b, ⟨ha, -, href⟩, rfl, rfl⟩
    obtain ⟨d, hd⟩ := (h.selection_form hs ha.1 ha.2).1
    exact ⟨_, (h.lineage_selections hs).mpr ⟨a, d, ha, hd, rfl, rfl⟩, href⟩

theorem Verified.mem_selections {x : Record} (hx : (P.replayEnd L s).Selects x) :
    x.id ∈ (P.lineage L s).selections := by
  obtain ⟨d, hd⟩ := (h.selection_form hs hx.1 hx.2).1
  rw [ExtTreeMap.mem_iff_isSome_getElem?, (h.lineage_selections hs).mpr ⟨x, d, hx, hd, rfl, rfl⟩]
  rfl

theorem Verified.descends : Descends (P.lineage L s).selections (P.rank L) := by
  intro x y hxy
  obtain ⟨a, b, ⟨ha, hb, href⟩, rfl, rfl⟩ := (h.hop_iff hs).mp hxy
  obtain ⟨y, hy, hid, -, hlt⟩ := (h.selection_form hs ha.1 ha.2).2 _ href
  obtain rfl := h.run.eq_of_accepted_id hy hb.1 hid
  rw [h.rank_eq ha.1, h.rank_eq hb.1]
  exact ⟨h.mem_selections hs hb, hlt⟩

/-- Chains in the table are Replace chains of records. -/
theorem Verified.reaches_iff {x y : Record} (hx : (P.replayEnd L s).Selects x)
    (hy : (P.replayEnd L s).Selects y) :
    Relation.TransGen (Hop (P.lineage L s).selections) x.id y.id ↔
      Relation.TransGen (P.replayEnd L s).Replaces x y := by
  constructor
  · intro hpath
    have hgen : ∀ {a b : RecordId}, Relation.TransGen (Hop (P.lineage L s).selections) a b →
        ∀ x : Record, (P.replayEnd L s).Selects x → x.id = a →
        ∃ y, (P.replayEnd L s).Selects y ∧ y.id = b ∧
          Relation.TransGen (P.replayEnd L s).Replaces x y := by
      intro a b hab
      induction hab with
      | single hab =>
        rintro x hx rfl
        obtain ⟨x', y, hxy, hid, rfl⟩ := (h.hop_iff hs).mp hab
        obtain rfl := h.run.eq_of_accepted_id hxy.1.1 hx.1 hid
        exact ⟨y, hxy.2.1, rfl, .single hxy⟩
      | tail _ hbc ih =>
        intro x hx hxa
        obtain ⟨y, hy, rfl, hpath⟩ := ih x hx hxa
        obtain ⟨y', z, hyz, hid, rfl⟩ := (h.hop_iff hs).mp hbc
        obtain rfl := h.run.eq_of_accepted_id hyz.1.1 hy.1 hid
        exact ⟨z, hyz.2.1, rfl, .tail hpath hyz⟩
    obtain ⟨y', hy', hid, hpath⟩ := hgen hpath x hx rfl
    rwa [h.run.eq_of_accepted_id hy'.1 hy.1 hid] at hpath
  · intro hpath
    exact hpath.lift Record.id fun a b hab => (h.hop_iff hs).mpr ⟨a, b, hab, rfl, rfl⟩

theorem Verified.mem_replacers (horder : P.HashOrderPermutes) {y : Record}
    (hy : (P.replayEnd L s).Selects y) {id : RecordId} :
    id ∈ ((P.replacers (P.lineage L s) s)[y.id]?.getD ∅) ↔
      ∃ x, (P.replayEnd L s).Restores x y ∧ x.id = id := by
  unfold Platform.replacers
  rw [mem_addReplacers]
  simp only [ExtTreeMap.getElem?_empty, Option.getD_none, ExtTreeSet.not_mem_empty, false_or]
  have hperm (e : RecordId × SelInfo) : e ∈ P.hashOrder _ (P.lineage L s).selections.toList ↔
      (P.lineage L s).selections[e.1]? = some e.2 := by
    rw [(horder _ _).mem_iff, ExtTreeMap.mem_toList_iff_getElem?_eq_some]
  constructor
  · rintro ⟨info, hin, hsound, hchain⟩
    obtain ⟨x, d, hx, hd, rfl, rfl⟩ := (h.lineage_selections hs).mp ((hperm _).mp hin)
    refine ⟨x, ⟨⟨hx, ?_⟩, ?_⟩, rfl⟩
    · simpa [State.isUnsound, Platform.replayEnd] using hsound
    · -- the first hop, then the chain
      cases htarget : findReplaceRef x.refs with
      | none => simp [htarget, replaceChain] at hchain
      | some z =>
        simp only [htarget] at hchain
        apply (h.reaches_iff hs hx hy).mp
        refine Relation.TransGen.head' ?_ (reaches_of_mem_replaceChain hchain)
        obtain ⟨b, hb, rfl, hbk, -⟩ := (h.selection_form hs hx.1 hx.2).2 z htarget
        exact (h.hop_iff hs).mpr ⟨x, b, ⟨hx, ⟨hb, hbk⟩, htarget⟩, rfl, rfl⟩
  · rintro ⟨x, ⟨⟨hx, hsound⟩, hpath⟩, rfl⟩
    obtain ⟨d, hd⟩ := (h.selection_form hs hx.1 hx.2).1
    refine ⟨_, (hperm _).mpr ((h.lineage_selections hs).mpr ⟨x, d, hx, hd, rfl, rfl⟩), ?_, ?_⟩
    · simpa [State.isUnsound, Platform.replayEnd] using hsound
    · obtain ⟨z, hxz, hzy⟩ := Relation.TransGen.head'_iff.mp hpath
      simp only [hxz.2.2]
      have hzy' : Relation.ReflTransGen (Hop (P.lineage L s).selections) z.id y.id :=
        hzy.lift Record.id fun a b hab => (h.hop_iff hs).mpr ⟨a, b, hab, rfl, rfl⟩
      apply mem_replaceChain_of_reaches (h.descends hs) (h.mem_selections hs hxz.2.1) _ hzy'
      exact (card_upTo_le _).trans (Nat.le_succ _)

end Replacers

end Bellbook
