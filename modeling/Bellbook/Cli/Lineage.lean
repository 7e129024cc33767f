import Bellbook.Queries.Listings

/-!
# The lineage command (`bin/bellbook.rs`)

`bellbook lineage` is older than the queries and walks the log by itself: it climbs from a Candidate
over the parents of continuations, and scans the log for the Candidates and Selections that mention
it. It reads no verdicts on the way, so rejected records are listed too.

The climb is a `while` loop over payloads, which nothing in the loop bounds. From an accepted
Candidate it ends, since a parent is earlier than its continuation; what the report says of accepted
records is what the queries answer (`lineage_agrees`).
-/

namespace Bellbook

open Std Relation

/-- Why there is no report. -/
inductive LineageError where
  | invalidLog
  | notFound (id : RecordId)
  deriving DecidableEq

structure LineageReport where
  id : String
  kind : String
  basis : Option String
  parent : Option String
  note : Option String
  tainted : Bool
  standing : String
  ancestors : List String
  children : List String
  siblings : List String
  consideredBy : List String
  selectedBy : List String
  deriving DecidableEq

/-- The name of a basis as it is printed (`{:?}`). -/
def CandidateBasis.label : CandidateBasis → String
  | .root => "Root"
  | .continuation => "Continuation"
  | .derivation => "Derivation"

namespace Platform

variable (P : Platform)

/-- `find_candidate`. -/
def findCandidate (records : List Record) (id : RecordId) : Option CandidateData :=
  (records.find? fun r => r.id = id && r.kind = .candidate).bind fun r => P.decode CandidateData r.data

/-- The loop over the parents; there is no answer if it does not end within the fuel. -/
def climb (records : List Record) : Nat → Option RecordId → Option (List RecordId)
  | _, none => some []
  | 0, some _ => none
  | fuel + 1, some id =>
    (climb records fuel ((P.findCandidate records id).bind CandidateData.parent)).map (id :: ·)

/-- The payload of a Candidate. -/
def asCandidate (r : Record) : Option CandidateData :=
  if r.kind = .candidate then P.decode CandidateData r.data else none

/-- The payload of a Selection. -/
def asSelection (r : Record) : Option SelectionData :=
  if r.kind = .selection then P.decode SelectionData r.data else none

/-- The Candidate continues the target, or has it among its causes. -/
def isChild (target : RecordId) (r : Record) : Bool :=
  (P.asCandidate r).any fun d => r.id ≠ target &&
    (d.parent = some target || r.refs.any fun ref => ref.type = .cause && ref.target = target)

/-- The Candidate shares the parent of the target, which has one. -/
def sharesParent (target : RecordId) (parent : Option RecordId) (r : Record) : Bool :=
  (P.asCandidate r).any fun d => r.id ≠ target && parent.isSome && d.parent = parent

/-- The Selection considered the target. -/
def considers (target : RecordId) (r : Record) : Bool :=
  (P.asSelection r).any fun d => target ∈ d.considered

/-- The Selection chose the target. -/
def chooses (target : RecordId) (r : Record) : Bool :=
  (P.asSelection r).any fun d => target ∈ d.outcome.winners

/-- The report on a record of a log with the verdict. -/
def lineageReport (records : List Record) (verdict : LogVerdict) (r : Record)
    (ancestors : List RecordId) : LineageReport :=
  let data := P.asCandidate r
  let listed (p : Record → Bool) := (records.filter p).map fun x => hexEncode x.id
  { id := hexEncode r.id
    kind := UnitEnum.name r.kind
    basis := data.map fun d => d.basis.label
    parent := (data.bind CandidateData.parent).map hexEncode
    note := data.bind CandidateData.note
    tainted := r.id ∈ verdict.taintedRecords
    standing := Queries.standingLabel verdict r
    ancestors := ancestors.map hexEncode
    children := listed (P.isChild r.id)
    siblings := listed (P.sharesParent r.id (data.bind CandidateData.parent))
    consideredBy := listed (P.considers r.id)
    selectedBy := listed (P.chooses r.id) }

/-- `persist_cmds::lineage`, over the records of an opened log. -/
def cmdLineage (fuel : Nat) (rules : VerifierRules) (records : List Record) (target : RecordId) :
    Option (Except LineageError LineageReport) :=
  let verdict := P.verifyLog rules records none
  if verdict.result ≠ .accept then some (.error .invalidLog)
  else match records.find? fun r => r.id = target with
    | none => some (.error (.notFound target))
    | some r =>
      (P.climb records fuel ((P.asCandidate r).bind CandidateData.parent)).map fun ancestors =>
        .ok (P.lineageReport records verdict r ancestors)

/-! ## Parents -/

/-- The Candidate names the accepted Candidate as its parent. -/
def Continues (L : List Record) (c p : Record) : Prop :=
  p ∈ P.accepted L ∧ p.kind = .candidate ∧ ∃ d, P.asCandidate c = some d ∧ d.parent = some p.id

/-- The Candidates above a Candidate, the near ones first, up to one that continues none. -/
inductive ParentChain (L : List Record) : Record → List Record → Prop
  | root {c : Record} {d : CandidateData} :
      P.asCandidate c = some d → d.parent = none → ParentChain L c []
  | step {c p : Record} {chain : List Record} :
      P.Continues L c p → ParentChain L p chain → ParentChain L c (p :: chain)

end Platform

variable {P : Platform} {rules : VerifierRules} {L : List Record} {s : State}

theorem asCandidate_eq_some {c : Record} {d : CandidateData} :
    P.asCandidate c = some d ↔ c.kind = .candidate ∧ P.decode CandidateData c.data = some d := by
  unfold Platform.asCandidate
  split
  · next hk => simp [hk]
  · next hk => simp [hk]

theorem asSelection_eq_some {x : Record} {d : SelectionData} :
    P.asSelection x = some d ↔ x.kind = .selection ∧ P.decode SelectionData x.data = some d := by
  unfold Platform.asSelection
  split
  · next hk => simp [hk]
  · next hk => simp [hk]

section Accepted

variable (h : Verified P rules L s) (hs : P.HashSound L)
include h hs

/-- An accepted Candidate that is no continuation has no parent, and a root has no cause but a
Request. -/
theorem Verified.candidate_rest {c : Record} (hc : c ∈ P.accepted L) {d : CandidateData}
    (hd : P.asCandidate c = some d) (hb : d.basis ≠ .continuation) :
    d.parent = none ∧ (d.basis = .root → ∀ t ∈ refTargets .cause c.refs,
      ∃ x ∈ P.accepted L, x.id = t ∧ x.kind = .request) := by
  obtain ⟨hk, hd⟩ := asCandidate_eq_some.mp hd
  obtain ⟨i, hi, rfl⟩ := List.mem_iff_getElem.mp (mem_of_mem_accepted hc)
  obtain ⟨t, ht, hcheck⟩ := h.accepted_at hs hi hc
  have hkind := (checkSubject_passes hcheck).kind
  simp only [Platform.checkKindSpecific, hk, Platform.checkCandidate, hd, orReject_eq_none,
    orElse_none_iff, rejectIf_eq_none, Option.some.injEq, exists_eq_left'] at hkind
  obtain ⟨-, -, -, causes, hcauses, hbasis⟩ := hkind
  have hall := forall₂_mapM hcauses
  cases hbd : d.basis with
  | continuation => exact absurd hbd hb
  | derivation =>
    simp only [Platform.checkBasis, hbd, orElse_none_iff, rejectIf_eq_none, not_or] at hbasis
    exact ⟨by simpa using hbasis.1.1, by simp⟩
  | root =>
    simp only [Platform.checkBasis, hbd, orElse_none_iff, rejectIf_eq_none, not_or] at hbasis
    obtain ⟨⟨hparent, hlen⟩, hrequest⟩ := hbasis
    refine ⟨by simpa using hparent, fun _ target htarget => ?_⟩
    obtain ⟨x, hx, hfind⟩ := exists_of_forall₂ hall htarget
    cases causes with
    | nil => simp at hx
    | cons y others =>
      cases others with
      | nil =>
        obtain rfl := List.mem_singleton.mp hx
        simp only [rejectIf_eq_none, not_or, not_not] at hrequest
        obtain ⟨hin, hid, -⟩ := h.found_before hs hi ht hfind hrequest.2
        exact ⟨x, hin, hid, hrequest.1⟩
      | cons => simp at hlen

/-- What an accepted Candidate names as its parent. -/
theorem Verified.continues_iff {c p : Record} (hc : c ∈ P.accepted L) (hp : p ∈ P.accepted L)
    (hk : p.kind = .candidate) : P.Continues L c p ↔
      ∃ d, P.asCandidate c = some d ∧ d.basis = .continuation ∧ d.parent = some p.id := by
  constructor
  · rintro ⟨-, -, d, hd, hparent⟩
    refine ⟨d, hd, ?_, hparent⟩
    by_contra hb
    rw [(h.candidate_rest hs hc hd hb).1] at hparent
    cases hparent
  · rintro ⟨d, hd, -, hparent⟩
    exact ⟨hp, hk, d, hd, hparent⟩

/-- A parent is an ancestor. -/
theorem Verified.backEdge_of_continues {c p : Record} (hc : c ∈ P.accepted L)
    (hcp : P.Continues L c p) : P.BackEdge L c p := by
  obtain ⟨d, hd, hb, hparent⟩ := (h.continues_iff hs hc hcp.1 hcp.2.1).mp hcp
  obtain ⟨hk, hd⟩ := asCandidate_eq_some.mp hd
  exact ⟨hk, mem_of_mem_accepted hcp.1, d, hd, .inl ⟨hb, .inr hparent⟩⟩

/-- The Candidates that the command lists as children are the ones with an edge to the target. -/
theorem Verified.isChild_iff {c x : Record} (hc : c ∈ P.accepted L) (hk : c.kind = .candidate)
    (hx : x ∈ P.accepted L) : P.isChild c.id x = true ↔ P.BackEdge L x c := by
  have hchild : P.isChild c.id x = true ↔ ∃ d, P.asCandidate x = some d ∧ x.id ≠ c.id ∧
      (d.parent = some c.id ∨ c.id ∈ refTargets .cause x.refs) := by
    simp only [Platform.isChild, Option.any_eq_true, Bool.and_eq_true, Bool.or_eq_true,
      decide_eq_true_eq, List.any_eq_true, mem_refTargets]
  have hsame {y : Record} (hy : y ∈ P.accepted L) (hid : y.id = c.id) : y = c :=
    h.eq_of_id_eq hs (mem_of_mem_accepted hy) (mem_of_mem_accepted hc) hid
  rw [hchild]
  constructor
  · rintro ⟨d, hd, -, hedge⟩
    obtain ⟨hxk, hdec⟩ := asCandidate_eq_some.mp hd
    refine ⟨hxk, mem_of_mem_accepted hc, d, hdec, ?_⟩
    cases hb : d.basis with
    | continuation => exact .inl ⟨rfl, hedge.symm⟩
    | derivation =>
      have hparent := (h.candidate_rest hs hx hd (by simp [hb])).1
      rcases hedge with hedge | hcause
      · rw [hparent] at hedge
        cases hedge
      · exact .inr ⟨rfl, hk, hcause⟩
    | root =>
      obtain ⟨hparent, hroot⟩ := h.candidate_rest hs hx hd (by simp [hb])
      rcases hedge with hedge | hcause
      · rw [hparent] at hedge
        cases hedge
      · -- the cause of a root is a Request
        obtain ⟨y, hy, hid, hyk⟩ := hroot hb c.id hcause
        rw [hsame hy hid, hk] at hyk
        cases hyk
  · intro hedge
    have hne : x.id ≠ c.id := by
      intro hid
      obtain rfl := hsame hx hid
      exact h.not_backEdge_cycle hs hx hk (.single hedge)
    obtain ⟨hxk, -, d, hd, hcases⟩ := hedge
    refine ⟨d, asCandidate_eq_some.mpr ⟨hxk, hd⟩, hne, ?_⟩
    rcases hcases with ⟨-, hcause | hparent⟩ | ⟨-, -, hcause⟩
    · exact .inr hcause
    · exact .inl hparent
    · exact .inr hcause

/-! ## The climb -/

/-- Above an accepted Candidate there is a chain. -/
theorem Verified.exists_parentChain {c : Record} (hc : c ∈ P.accepted L) (hk : c.kind = .candidate) :
    ∃ chain, P.ParentChain L c chain := by
  -- a parent is earlier
  induction ht : c.time.toNat using Nat.strong_induction_on generalizing c with
  | _ t ih =>
    subst ht
    obtain ⟨d, hform⟩ := h.candidate_form hs hc hk
    have hd : P.asCandidate c = some d := asCandidate_eq_some.mpr ⟨hk, hform.payload⟩
    by_cases hb : d.basis = .continuation
    · obtain ⟨-, -, -, -, p, hp, hpk, hparent, hlt⟩ := hform.continuation hb
      obtain ⟨chain, hchain⟩ := ih _ hlt hp hpk rfl
      exact ⟨p :: chain, .step ⟨hp, hpk, d, hd, hparent⟩ hchain⟩
    · exact ⟨[], .root hd (h.candidate_rest hs hc hd hb).1⟩

/-- The records of a chain are accepted ancestors, each earlier than the one before. -/
theorem Verified.parentChain_earlier {c : Record} {chain : List Record}
    (hchain : P.ParentChain L c chain) (hc : c ∈ P.accepted L) :
    (∀ x ∈ chain, x ∈ P.accepted L ∧ TransGen (P.BackEdge L) c x) ∧
      (c :: chain).Pairwise fun a b => b.time.toNat < a.time.toNat := by
  induction hchain with
  | root => exact ⟨by simp, List.pairwise_singleton _ _⟩
  | @step c p chain hcp _ ih =>
    obtain ⟨hmem, hpair⟩ := ih hcp.1
    have hedge := h.backEdge_of_continues hs hc hcp
    have hlt : p.time.toNat < c.time.toNat := (h.backEdge_earlier hs hc hedge).2 hcp.2.1
    refine ⟨?_, List.pairwise_cons.mpr ⟨?_, hpair⟩⟩
    · intro x hx
      rcases List.mem_cons.mp hx with rfl | hx
      · exact ⟨hcp.1, .single hedge⟩
      · exact ⟨(hmem x hx).1, .head hedge (hmem x hx).2⟩
    · intro x hx
      rcases List.mem_cons.mp hx with rfl | hx
      · exact hlt
      · exact ((List.pairwise_cons.mp hpair).1 x hx).trans hlt

theorem Verified.parentChain_length {c : Record} {chain : List Record}
    (hchain : P.ParentChain L c chain) (hc : c ∈ P.accepted L) : chain.length < L.length := by
  obtain ⟨hmem, hpair⟩ := h.parentChain_earlier hs hchain hc
  have hnodup : (c :: chain).Nodup := hpair.imp fun hlt heq => by
    rw [heq] at hlt
    exact Nat.lt_irrefl _ hlt
  have hsub : c :: chain ⊆ L := by
    intro x hx
    rcases List.mem_cons.mp hx with rfl | hx
    · exact mem_of_mem_accepted hc
    · exact mem_of_mem_accepted (hmem x hx).1
  exact (List.subperm_of_subset hnodup hsub).length_le

/-- An accepted record is the one found by a test that only its id can pass. -/
theorem Verified.find?_eq {test : Record → Bool} {r : Record} (hr : r ∈ P.accepted L)
    (htest : test r = true) (honly : ∀ x, test x = true → x.id = r.id) : L.find? test = some r := by
  have hin := mem_of_mem_accepted hr
  have hsome : (L.find? test).isSome = true := by
    rw [List.find?_isSome]
    exact ⟨r, hin, htest⟩
  obtain ⟨x, hx⟩ := Option.isSome_iff_exists.mp hsome
  rw [hx, h.eq_of_id_eq hs (List.mem_of_find?_eq_some hx) hin (honly x (List.find?_some hx))]

/-- An accepted Candidate is the one that is found under its id. -/
theorem Verified.findCandidate_eq {p : Record} (hp : p ∈ P.accepted L) (hk : p.kind = .candidate) :
    P.findCandidate L p.id = P.asCandidate p := by
  have hfind : L.find? (fun r => r.id = p.id && r.kind = .candidate) = some p := by
    refine h.find?_eq hs hp (by simp [hk]) fun x hx => ?_
    simp only [Bool.and_eq_true, decide_eq_true_eq] at hx
    exact hx.1
  rw [Platform.findCandidate, hfind, Option.bind_some, Platform.asCandidate, if_pos hk]

/-- **The climb lists the chain**, and ends within as many steps. -/
theorem Verified.climb_eq {c : Record} {chain : List Record} (hchain : P.ParentChain L c chain)
    {fuel : Nat} (hfuel : chain.length ≤ fuel) :
    P.climb L fuel ((P.asCandidate c).bind CandidateData.parent) = some (chain.map Record.id) := by
  induction hchain generalizing fuel with
  | root hd hparent =>
    rw [hd, Option.bind_some, hparent]
    cases fuel <;> rfl
  | @step c p chain hcp _ ih =>
    obtain ⟨hp, hk, d, hd, hparent⟩ := hcp
    cases fuel with
    | zero => simp at hfuel
    | succ fuel =>
      have hrest := ih (Nat.le_of_succ_le_succ hfuel)
      rw [hd, Option.bind_some, hparent, Platform.climb, h.findCandidate_eq hs hp hk, hrest]
      rfl

end Accepted

/-- The record of an id in a listing. -/
theorem mem_listed {p : Record → Bool} {x : Record} (h : Verified P rules L s) (hs : P.HashSound L)
    (hx : x ∈ P.accepted L) :
    hexEncode x.id ∈ (L.filter p).map (fun y => hexEncode y.id) ↔ p x = true := by
  have hin := mem_of_mem_accepted hx
  rw [List.mem_map]
  constructor
  · rintro ⟨y, hy, hid⟩
    obtain ⟨hyL, hp⟩ := List.mem_filter.mp hy
    exact h.eq_of_id_eq hs hyL hin (hexEncode_inj hid) ▸ hp
  · intro hp
    exact ⟨x, List.mem_filter.mpr ⟨hin, hp⟩, rfl⟩

/-- What the report of an accepted Candidate says of the accepted records. -/
structure Platform.LineageAgrees (P : Platform) (L : List Record) (c : Record) (chain : List Record)
    (report : LineageReport) : Prop where
  ancestors : report.ancestors = chain.map fun x => hexEncode x.id
  parents : P.ParentChain L c chain
  earlier : (c :: chain).Pairwise fun a b => b.time.toNat < a.time.toNat
  reached : ∀ x ∈ chain, TransGen (P.BackEdge L) c x
  children : ∀ x ∈ P.accepted L, hexEncode x.id ∈ report.children ↔ P.BackEdge L x c
  siblings : ∀ x ∈ P.accepted L, hexEncode x.id ∈ report.siblings ↔
    x ≠ c ∧ ∃ p, P.Continues L x p ∧ P.Continues L c p
  considered : (∃ x ∈ P.accepted L, hexEncode x.id ∈ report.consideredBy) ↔ P.Considered L c.id
  selected : (∃ x ∈ P.accepted L, hexEncode x.id ∈ report.selectedBy) ↔ P.Chosen L c.id

theorem considers_iff {id : RecordId} {x : Record} : P.considers id x = true ↔
    x.kind = .selection ∧ ∃ d, P.decode SelectionData x.data = some d ∧ id ∈ d.considered := by
  simp only [Platform.considers, Option.any_eq_true, asSelection_eq_some, decide_eq_true_eq, and_assoc,
    exists_and_left]

theorem chooses_iff {id : RecordId} {x : Record} : P.chooses id x = true ↔
    x.kind = .selection ∧ ∃ d, P.decode SelectionData x.data = some d ∧ id ∈ d.outcome.winners := by
  simp only [Platform.chooses, Option.any_eq_true, asSelection_eq_some, decide_eq_true_eq, and_assoc,
    exists_and_left]

/-- Two accepted Candidates share a parent in the payloads exactly if they continue one Candidate. -/
theorem Verified.sharesParent_iff (h : Verified P rules L s) (hs : P.HashSound L) {c x : Record}
    (hc : c ∈ P.accepted L) (hx : x ∈ P.accepted L) {d : CandidateData} (hd : P.asCandidate c = some d) :
    P.sharesParent c.id d.parent x = true ↔ x ≠ c ∧ ∃ p, P.Continues L x p ∧ P.Continues L c p := by
  simp only [Platform.sharesParent, Option.any_eq_true, Bool.and_eq_true, decide_eq_true_eq,
    Option.isSome_iff_exists]
  constructor
  · rintro ⟨dx, hdx, ⟨hne, pid, hpid⟩, hparent⟩
    refine ⟨fun heq => hne (by rw [heq]), ?_⟩
    have hb : d.basis = .continuation := by
      by_contra hb
      rw [(h.candidate_rest hs hc hd hb).1] at hpid
      cases hpid
    obtain ⟨hk, hdec⟩ := asCandidate_eq_some.mp hd
    obtain ⟨d', hform⟩ := h.candidate_form hs hc hk
    obtain rfl : d' = d := Option.some.inj (hform.payload.symm.trans hdec)
    obtain ⟨-, -, -, -, p, hp, hpk, hcp, -⟩ := hform.continuation hb
    exact ⟨p, ⟨hp, hpk, dx, hdx, hparent.trans hcp⟩, hp, hpk, d', hd, hcp⟩
  · rintro ⟨hne, p, ⟨-, -, dx, hdx, hxp⟩, -, -, d', hd', hcp⟩
    obtain rfl : d' = d := Option.some.inj (hd'.symm.trans hd)
    refine ⟨dx, hdx, ⟨fun hid => hne ?_, p.id, hcp⟩, hxp.trans hcp.symm⟩
    exact h.eq_of_id_eq hs (mem_of_mem_accepted hx) (mem_of_mem_accepted hc) hid

/-- The report on an accepted Candidate, from the chain above it. -/
theorem Verified.lineageReport_agrees (h : Verified P rules L s) (hs : P.HashSound L) {c : Record}
    (hc : c ∈ P.accepted L) (hk : c.kind = .candidate) {chain : List Record}
    (hchain : P.ParentChain L c chain) (verdict : LogVerdict) :
    P.LineageAgrees L c chain (P.lineageReport L verdict c (chain.map Record.id)) := by
  obtain ⟨hmem, hpair⟩ := h.parentChain_earlier hs hchain hc
  obtain ⟨d, hform⟩ := h.candidate_form hs hc hk
  have hd : P.asCandidate c = some d := asCandidate_eq_some.mpr ⟨hk, hform.payload⟩
  refine ⟨List.map_map, hchain, hpair, fun x hx => (hmem x hx).2, ?_, ?_, ?_, ?_⟩
  · intro x hx
    exact (mem_listed h hs hx).trans (h.isChild_iff hs hc hk hx)
  · intro x hx
    refine (mem_listed h hs hx).trans ?_
    rw [hd, Option.bind_some]
    exact h.sharesParent_iff hs hc hx hd
  · constructor
    · rintro ⟨x, hx, hlist⟩
      exact ⟨x, hx, considers_iff.mp ((mem_listed h hs hx).mp hlist)⟩
    · rintro ⟨x, hx, hdecided⟩
      exact ⟨x, hx, (mem_listed h hs hx).mpr (considers_iff.mpr hdecided)⟩
  · constructor
    · rintro ⟨x, hx, hlist⟩
      exact ⟨x, hx, chooses_iff.mp ((mem_listed h hs hx).mp hlist)⟩
    · rintro ⟨x, hx, hdecided⟩
      exact ⟨x, hx, (mem_listed h hs hx).mpr (chooses_iff.mpr hdecided)⟩

/-- **The command and the queries agree.** On an accepted log `lineage` of an accepted Candidate ends
within as many steps as the log has records. Its ancestors are the chain of parents, each earlier than
the one before and each on the line of descent; of the accepted records, it lists as children those
with an edge to the Candidate, as siblings those that continue the same parent, and some Selection as
considering or choosing it exactly if one did; and its marks are those that `standing` reports. -/
theorem lineage_agrees (hs : P.HashSound L) (h : P.Accepts rules L) : ∃ Q, P.queries rules L = .ok Q ∧
    ∀ c ∈ P.accepted L, c.kind = .candidate → ∃ (report : LineageReport) (chain : List Record)
      (line : DescentReport) (node : StandingReport),
      (∀ fuel, L.length ≤ fuel → P.cmdLineage fuel rules L c.id = some (.ok report)) ∧
        P.LineageAgrees L c chain report ∧
        Q.descent P c.id = .ok line ∧ (∀ x ∈ chain, Q.node P x ∈ line.line.map DescentStep.node) ∧
        Q.standing P c.id = .ok node ∧ report.standing = node.node.standing ∧
        report.tainted = node.node.tainted := by
  obtain ⟨s, hv⟩ := accepts_iff.mp h
  refine ⟨_, hv.queries_eq, fun c hc hk => ?_⟩
  obtain ⟨chain, hchain⟩ := hv.exists_parentChain hs hc hk
  obtain ⟨line, ancestors, hdescent, hline, hL⟩ := hv.descent_exact hs hc hk
  have hreport := hv.lineageReport_agrees hs hc hk hchain (P.verifyLog rules L none)
  have hget : (P.context rules L s).getAccepted c.id = .ok c := (hv.getAccepted_eq_ok hs).mpr ⟨hc, rfl⟩
  refine ⟨_, chain, _, _, fun fuel hfuel => ?_, hreport, hdescent, fun x hx => ?_,
    bind_eq_ok.mpr ⟨c, hget, rfl⟩, rfl, rfl⟩
  · have hclimb := hv.climb_eq hs hchain ((hv.parentChain_length hs hchain hc).le.trans hfuel)
    have hfind : L.find? (fun r => r.id = c.id) = some c :=
      hv.find?_eq hs hc (by simp) fun x hx => by simpa using hx
    have hresult : (P.verifyLog rules L none).result = .accept := h
    unfold Platform.cmdLineage
    simp only [hresult, ne_eq, not_true_eq_false, if_false, hfind, hclimb, Option.map_some]
  · rw [hline]
    exact List.mem_map_of_mem ((hL.mem x).mpr (hreport.reached x hx))

/-- The edge of the sample line. -/
theorem lineLog_edge : reference.BackEdge lineLog sampleDerivation sampleCandidate := by
  have hdata : ∃ d, reference.decode CandidateData sampleDerivation.data = some d ∧
      d.basis = .derivation := by decide +kernel
  obtain ⟨d, hd, hb⟩ := hdata
  exact ⟨rfl, List.mem_cons_self, d, hd, .inr ⟨hb, rfl, List.mem_cons_self⟩⟩

/-- The derivation is a child of the root candidate. -/
theorem lineLog_children : ∃ report,
    reference.cmdLineage 4 sampleRules lineLog sampleCandidate.id = some (.ok report) ∧
      hexEncode sampleDerivation.id ∈ report.children := by
  obtain ⟨Q, -, hall⟩ := lineage_agrees lineLog_hashSound lineLog_accepts
  obtain ⟨report, chain, line, node, hreport, hagrees, -⟩ :=
    hall sampleCandidate (by rw [accepted_lineLog]; simp) rfl
  have hin : sampleDerivation ∈ reference.accepted lineLog := by
    rw [accepted_lineLog]
    simp
  exact ⟨report, hreport 4 (by decide), (hagrees.children _ hin).mpr lineLog_edge⟩

end Bellbook
