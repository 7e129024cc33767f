import Bellbook.Lib.BreadthFirst
import Bellbook.Queries.Accepted
import Bellbook.Verify.Noninterference

/-!
# Lines of descent

`descent` is a breadth-first search over the lineage edges of Candidates, which it reads partly from
refs and partly from payloads. Over an accepted log every edge has an accepted target
(`Verified.exists_backEdges`), so no lookup fails and the loop keeps the invariant of the search
(`Verified.descentLoop_exact`). Parents and derivation causes are earlier than the Candidate and
anchors have no edges of their own, so no Candidate is its own ancestor
(`Verified.not_backEdge_cycle`). `descendants` asks the line of every other accepted Candidate.
-/

namespace Bellbook

open Std Relation BreadthFirst

/-- A lineage edge: from a continuation to its anchor and its parent, from a derivation to the
Candidates among its causes. -/
def Platform.BackEdge (P : Platform) (L : List Record) (c x : Record) : Prop :=
  c.kind = .candidate ∧ x ∈ L ∧ ∃ d, P.decode CandidateData c.data = some d ∧
    ((d.basis = .continuation ∧ (x.id ∈ refTargets .cause c.refs ∨ d.parent = some x.id)) ∨
      (d.basis = .derivation ∧ x.kind = .candidate ∧ x.id ∈ refTargets .cause c.refs))

/-- The loop of `descent` from a Candidate, in the middle of the search. -/
structure Platform.Searching (P : Platform) (rules : VerifierRules) (L : List Record) (s : State)
    (c : Record) (seen : IdSet) (queue : List (RecordId × String)) (line : List DescentStep)
    (found waiting : List (Record × Nat)) : Prop where
  inv : Inv (P.BackEdge L) c found waiting
  source : c ∈ P.accepted L
  accepted : ∀ p ∈ found ++ waiting, p.1 ∈ P.accepted L
  queue : queue.map Prod.fst = waiting.map fun p => p.1.id
  seen : ∀ id, id ∈ seen ↔ id ∈ (c :: found.map Prod.fst).map Record.id
  line : line.map DescentStep.node = found.map fun p => (P.context rules L s).node P p.1

/-- These are the ancestors of the Candidate, each once, the near ones first. -/
structure Platform.Line (P : Platform) (L : List Record) (c : Record) (ancestors : List Record) :
    Prop where
  ids : (ancestors.map Record.id).Nodup
  self : c ∉ ancestors
  mem : ∀ x, x ∈ ancestors ↔ TransGen (P.BackEdge L) c x
  nearest : ancestors.Pairwise fun a b =>
    distance (P.BackEdge L) c a ≤ distance (P.BackEdge L) c b

/-- The record is an accepted Candidate, another one, and the id is on its line. -/
def Queries.isDescendant (P : Platform) (Q : Queries) (id : RecordId) (r : Record) : Bool :=
  r.id ≠ id && Q.isAccepted .candidate r && match Q.descent P r.id with
    | .ok report => report.line.any fun step => step.node.id = hexEncode id
    | .error _ => false

variable {P : Platform} {rules : VerifierRules} {L : List Record} {s : State}

section Lines

variable (h : Verified P rules L s) (hs : P.HashSound L)
include h hs

/-! ## Edges -/

/-- The edges of `back_edges` are those of the definition. -/
theorem Verified.mem_backEdges_iff {c x : Record} {d : CandidateData} (hk : c.kind = .candidate)
    (hd : P.decode CandidateData c.data = some d) (hx : x ∈ L) :
    x.id ∈ ((P.context rules L s).backEdges c d).map Prod.fst ↔ P.BackEdge L c x := by
  have hget : (P.context rules L s).byId[x.id]? = some x := (h.byId_eq_some hs).mpr ⟨hx, rfl⟩
  have hedge : P.BackEdge L c x ↔
      (d.basis = .continuation ∧ (x.id ∈ refTargets .cause c.refs ∨ d.parent = some x.id)) ∨
        (d.basis = .derivation ∧ x.kind = .candidate ∧ x.id ∈ refTargets .cause c.refs) := by
    simp [Platform.BackEdge, hk, hx, hd]
  rw [hedge]
  unfold Queries.backEdges
  cases hb : d.basis with
  | root => simp
  | continuation =>
    simp [mem_sortedCauses, Function.comp_def]
  | derivation =>
    simp only [List.map_map, Function.comp_def, List.map_id', List.mem_filter, mem_sortedCauses, hget,
      Option.any_some, decide_eq_true_eq]
    simp [and_comm]

/-- The targets of the edges, as records. -/
theorem Verified.exists_backEdges {c : Record} (hc : c ∈ P.accepted L) (hk : c.kind = .candidate) :
    ∃ (d : CandidateData) (targets : List Record), Queries.candidateData P c = .ok d ∧
      ((P.context rules L s).backEdges c d).map Prod.fst = targets.map Record.id ∧
      (∀ x ∈ targets, x ∈ P.accepted L) ∧ ∀ x, x ∈ targets ↔ P.BackEdge L c x := by
  obtain ⟨d, hform⟩ := h.candidate_form hs hc hk
  have hdata : Queries.candidateData P c = .ok d := by
    simp [Queries.candidateData, hk, hform.payload]
  have hacc := h.backEdges_accepted hs hc hdata
  obtain ⟨targets, htargets⟩ : ((P.context rules L s).backEdges c d).map Prod.fst ∈
      Set.range (List.map fun x : {x // x ∈ P.accepted L} => x.1.id) := by
    rw [Set.range_list_map]
    intro id hid
    obtain ⟨e, he, rfl⟩ := List.mem_map.mp hid
    obtain ⟨x, hx, hxe⟩ := hacc e he
    exact ⟨⟨x, hx⟩, hxe⟩
  have hids : ((P.context rules L s).backEdges c d).map Prod.fst =
      (targets.map Subtype.val).map Record.id := by
    rw [List.map_map, ← htargets]
    rfl
  have hsub : ∀ x ∈ targets.map Subtype.val, x ∈ P.accepted L := by
    intro x hx
    obtain ⟨y, -, rfl⟩ := List.mem_map.mp hx
    exact y.2
  refine ⟨d, targets.map Subtype.val, hdata, hids, hsub, ?_⟩
  intro x
  constructor
  · intro hx
    have hmem : x.id ∈ (targets.map Subtype.val).map Record.id := List.mem_map_of_mem hx
    rw [← hids] at hmem
    exact (h.mem_backEdges_iff hs hk hform.payload (mem_of_mem_accepted (hsub x hx))).mp hmem
  · intro hedge
    have hmem := (h.mem_backEdges_iff hs hk hform.payload hedge.2.1).mpr hedge
    rw [hids] at hmem
    obtain ⟨y, hy, hyx⟩ := List.mem_map.mp hmem
    rwa [← h.eq_of_id_eq hs (mem_of_mem_accepted (hsub y hy)) hedge.2.1 hyx]

/-- An edge leads to an accepted record, and to a Candidate only if that is earlier. -/
theorem Verified.backEdge_earlier {c x : Record} (hc : c ∈ P.accepted L) (hedge : P.BackEdge L c x) :
    x ∈ P.accepted L ∧ (x.kind = .candidate → x.time.toNat < c.time.toNat) := by
  obtain ⟨hk, hx, d, hd, hcases⟩ := hedge
  obtain ⟨d', hform⟩ := h.candidate_form hs hc hk
  obtain rfl : d' = d := Option.some.inj (hform.payload.symm.trans hd)
  have hsame : ∀ {y}, y ∈ P.accepted L → y.id = x.id → y = x := fun hy =>
    h.eq_of_id_eq hs (mem_of_mem_accepted hy) hx
  rcases hcases with ⟨hb, hcases⟩ | ⟨hb, -, hcause⟩
  · obtain ⟨anchor, hanchor, hkind, hcauses, parent, hparent, -, hp, htime⟩ := hform.continuation hb
    rcases hcases with hcause | hpx
    · rw [hcauses, List.mem_singleton] at hcause
      obtain rfl := hsame hanchor hcause.symm
      refine ⟨hanchor, fun hcand => ?_⟩
      rw [hkind] at hcand
      cases hcand
    · rw [hp] at hpx
      obtain rfl := hsame hparent (Option.some.inj hpx)
      exact ⟨hparent, fun _ => htime⟩
  · obtain ⟨y, hy, hid, htime⟩ := hform.derivation hb x.id hcause
    obtain rfl := hsame hy hid
    exact ⟨hy, fun _ => htime⟩

theorem Verified.backEdges_earlier {c x : Record} (hc : c ∈ P.accepted L)
    (hpath : TransGen (P.BackEdge L) c x) :
    x ∈ P.accepted L ∧ (x.kind = .candidate → x.time.toNat < c.time.toNat) := by
  induction hpath with
  | single hedge => exact h.backEdge_earlier hs hc hedge
  | tail _ hedge ih =>
    obtain ⟨hacc, htime⟩ := h.backEdge_earlier hs ih.1 hedge
    exact ⟨hacc, fun hk => (htime hk).trans (ih.2 hedge.1)⟩

theorem Verified.not_backEdge_cycle {c : Record} (hc : c ∈ P.accepted L) (hk : c.kind = .candidate) :
    ¬TransGen (P.BackEdge L) c c := by
  intro hcycle
  exact Nat.lt_irrefl _ ((h.backEdges_earlier hs hc hcycle).2 hk)

/-! ## The search -/

section Search

variable {c x : Record} {seen : IdSet} {id : RecordId} {via : String}
  {queue : List (RecordId × String)} {line : List DescentStep} {found waiting : List (Record × Nat)}
  {l : Nat}

omit h hs in
/-- The record that the head of the queue stands for. -/
theorem Platform.Searching.head
    (hsearch : P.Searching rules L s c seen ((id, via) :: queue) line found waiting) :
    ∃ x l rest, waiting = (x, l) :: rest ∧ x.id = id := by
  have hqueue := hsearch.queue
  cases waiting with
  | nil => cases hqueue
  | cons p rest => exact ⟨p.1, p.2, rest, rfl, (List.cons.inj hqueue).1.symm⟩

theorem Verified.mem_seen_iff
    (hsearch : P.Searching rules L s c seen queue line found ((x, l) :: waiting)) :
    x.id ∈ seen ↔ x ∈ c :: found.map Prod.fst := by
  rw [hsearch.seen]
  constructor
  · intro hmem
    obtain ⟨y, hy, hyx⟩ := List.mem_map.mp hmem
    have hyacc : y ∈ P.accepted L := by
      rcases List.mem_cons.mp hy with rfl | hy
      · exact hsearch.source
      · obtain ⟨p, hp, rfl⟩ := List.mem_map.mp hy
        exact hsearch.accepted p (List.mem_append_left _ hp)
    have hxacc : x ∈ P.accepted L := hsearch.accepted (x, l) (by simp)
    rwa [← h.eq_of_id_eq hs (mem_of_mem_accepted hyacc) (mem_of_mem_accepted hxacc) hyx]
  · exact fun hx => List.mem_map_of_mem hx

theorem Verified.searching_skip
    (hsearch : P.Searching rules L s c seen ((x.id, via) :: queue) line found ((x, l) :: waiting))
    (hin : x.id ∈ seen) : P.Searching rules L s c seen queue line found waiting where
  inv := hsearch.inv.skip ((h.mem_seen_iff hs hsearch).mp hin)
  source := hsearch.source
  accepted p hp := hsearch.accepted p (((List.sublist_cons_self _ _).append_left _).mem hp)
  queue := (List.cons.inj hsearch.queue).2
  seen := hsearch.seen
  line := hsearch.line

theorem Verified.searching_visit
    (hsearch : P.Searching rules L s c seen ((x.id, via) :: queue) line found ((x, l) :: waiting))
    (hnew : x.id ∉ seen) {edges : List (RecordId × String)} {targets : List Record}
    (hedges : edges.map Prod.fst = targets.map Record.id) (hacc : ∀ z ∈ targets, z ∈ P.accepted L)
    (htargets : ∀ z, z ∈ targets ↔ P.BackEdge L x z) :
    P.Searching rules L s c (seen.insert x.id) (queue ++ edges)
      (line ++ [⟨(P.context rules L s).node P x, via⟩]) (found ++ [(x, l)])
      (waiting ++ targets.map fun z => (z, l + 1)) where
  inv := hsearch.inv.visit (fun hmem => hnew ((h.mem_seen_iff hs hsearch).mpr hmem)) htargets
  source := hsearch.source
  accepted p hp := by
    have hlist : found ++ [(x, l)] ++ (waiting ++ targets.map fun z => (z, l + 1)) =
        found ++ (x, l) :: waiting ++ targets.map fun z => (z, l + 1) := by simp
    rw [hlist] at hp
    rcases List.mem_append.mp hp with hp | hp
    · exact hsearch.accepted p hp
    · obtain ⟨z, hz, rfl⟩ := List.mem_map.mp hp
      exact hacc z hz
  queue := by
    rw [List.map_append, List.map_append, (List.cons.inj hsearch.queue).2, hedges, List.map_map]
    rfl
  seen id := by
    rw [Worklist.mem_insert_iff, hsearch.seen]
    simp [or_comm, or_left_comm]
  line := by
    rw [List.map_append, List.map_append, hsearch.line]
    rfl

end Search

/-- **The loop of `descent`** fails nowhere, and searches to its end. -/
theorem Verified.descentLoop_exact {c : Record} (seen : IdSet) (queue : List (RecordId × String))
    (line : List DescentStep) : ∀ {found waiting : List (Record × Nat)},
      P.Searching rules L s c seen queue line found waiting → ∃ seen' result found',
        (P.context rules L s).descentLoop P seen queue line = .ok result ∧
          P.Searching rules L s c seen' [] result found' [] := by
  fun_induction Queries.descentLoop P (P.context rules L s) seen queue line with
  | case1 seen line =>
    intro found waiting hsearch
    obtain rfl : waiting = [] := List.map_eq_nil_iff.mp hsearch.queue.symm
    exact ⟨seen, line, found, rfl, hsearch⟩
  | case2 seen line id via queue hin ih =>
    intro found waiting hsearch
    obtain ⟨x, l, rest, rfl, rfl⟩ := hsearch.head
    exact ih (h.searching_skip hs hsearch hin)
  | case3 seen line id via queue hin e hget =>
    -- the lookup of an accepted record does not fail
    intro found waiting hsearch
    obtain ⟨x, l, rest, rfl, rfl⟩ := hsearch.head
    have hx := hsearch.accepted (x, l) (by simp)
    rw [(h.get_eq_ok hs).mpr ⟨mem_of_mem_accepted hx, rfl⟩] at hget
    cases hget
  | case4 seen line id via queue hin anc hget hk e had =>
    intro found waiting hsearch
    obtain ⟨x, l, rest, rfl, rfl⟩ := hsearch.head
    have hanc := h.eq_of_acceptedId hs ⟨x, hsearch.accepted (x, l) (by simp), rfl⟩ hget
    obtain ⟨d, -, hd, -⟩ := h.exists_backEdges hs hanc hk
    rw [hd] at had
    cases had
  | case5 seen line id via queue hin anc hget hk ad had ih =>
    intro found waiting hsearch
    obtain ⟨x, l, rest, rfl, rfl⟩ := hsearch.head
    have hx := hsearch.accepted (x, l) (by simp)
    obtain ⟨hanc, hid⟩ := (h.get_eq_ok hs).mp hget
    obtain rfl := h.eq_of_id_eq hs hanc (mem_of_mem_accepted hx) hid
    obtain ⟨d, targets, hd, hedges, hacc, htargets⟩ := h.exists_backEdges hs hx hk
    obtain rfl := Except.ok.inj (hd.symm.trans had)
    exact ih (h.searching_visit hs hsearch hin hedges hacc htargets)
  | case6 seen line id via queue hin anc hget hk ih =>
    intro found waiting hsearch
    obtain ⟨x, l, rest, rfl, rfl⟩ := hsearch.head
    have hx := hsearch.accepted (x, l) (by simp)
    obtain ⟨hanc, hid⟩ := (h.get_eq_ok hs).mp hget
    obtain rfl := h.eq_of_id_eq hs hanc (mem_of_mem_accepted hx) hid
    -- only Candidates have edges of their own
    have hnone : ([] : List (RecordId × String)).map Prod.fst = ([] : List Record).map Record.id := rfl
    have hvisit := h.searching_visit hs hsearch hin hnone (by simp)
      (fun z => iff_of_false List.not_mem_nil fun hedge => hk hedge.1)
    exact ih (by simpa using hvisit)

/-! ## The queries -/

omit hs in
theorem Verified.nodup_ids {M : List Record} (hs : P.HashSound L) (hM : ∀ r ∈ M, r ∈ P.accepted L)
    (hnodup : M.Nodup) : (M.map Record.id).Nodup := by
  refine List.Nodup.map_on ?_ hnodup
  intro a ha b hb
  exact h.eq_of_id_eq hs (mem_of_mem_accepted (hM a ha)) (mem_of_mem_accepted (hM b hb))

theorem Verified.descent_exact {c : Record} (hc : c ∈ P.accepted L) (hk : c.kind = .candidate) :
    ∃ line ancestors,
      (P.context rules L s).descent P c.id = .ok ⟨(P.context rules L s).node P c, line⟩ ∧
      line.map DescentStep.node = ancestors.map ((P.context rules L s).node P) ∧
      P.Line L c ancestors := by
  obtain ⟨d, targets, hd, hedges, hacc, htargets⟩ := h.exists_backEdges hs hc hk
  have hstart : P.Searching rules L s c ((∅ : IdSet).insert c.id)
      ((P.context rules L s).backEdges c d) [] [] (targets.map fun z => (z, 1)) := by
    refine ⟨.start htargets, hc, ?_, ?_, ?_, rfl⟩
    · intro p hp
      rw [List.nil_append] at hp
      obtain ⟨z, hz, rfl⟩ := List.mem_map.mp hp
      exact hacc z hz
    · rw [hedges, List.map_map]
      rfl
    · intro id
      rw [Worklist.mem_insert_iff]
      simp
  obtain ⟨seen, line, found, hloop, hend⟩ := h.descentLoop_exact hs _ _ _ hstart
  refine ⟨line, found.map Prod.fst, ?_, ?_, ?_⟩
  · refine bind_eq_ok.mpr ⟨c, (h.getAccepted_eq_ok hs).mpr ⟨hc, rfl⟩, ?_⟩
    exact bind_eq_ok.mpr ⟨d, hd, bind_eq_ok.mpr ⟨line, hloop, rfl⟩⟩
  · rw [hend.line, List.map_map]
    rfl
  · have hfound : ∀ x ∈ found.map Prod.fst, x ∈ P.accepted L := by
      intro x hx
      obtain ⟨p, hp, rfl⟩ := List.mem_map.mp hx
      exact hend.accepted p (List.mem_append_left _ hp)
    obtain ⟨hself, hnodup⟩ := List.nodup_cons.mp hend.inv.nodup
    refine ⟨h.nodup_ids hs hfound hnodup, hself, ?_, hend.inv.pairwise_distance⟩
    intro x
    rw [hend.inv.mem_iff]
    constructor
    · exact And.left
    · intro hpath
      refine ⟨hpath, ?_⟩
      rintro rfl
      exact h.not_backEdge_cycle hs hc hk hpath

/-- The id of an accepted record is on a line if and only if its node is. -/
theorem Verified.any_id_iff {line : List DescentStep} {ancestors : List Record}
    (hline : line.map DescentStep.node = ancestors.map ((P.context rules L s).node P))
    (hacc : ∀ y ∈ ancestors, y ∈ P.accepted L) {x : Record} (hx : x ∈ P.accepted L) :
    (line.any fun step => step.node.id = hexEncode x.id) = true ↔
      ∃ step ∈ line, step.node = (P.context rules L s).node P x := by
  rw [List.any_eq_true]
  simp only [decide_eq_true_eq]
  constructor
  · rintro ⟨step, hstep, hid⟩
    refine ⟨step, hstep, ?_⟩
    have hmem : step.node ∈ ancestors.map ((P.context rules L s).node P) := by
      rw [← hline]
      exact List.mem_map_of_mem hstep
    obtain ⟨y, hy, hyn⟩ := List.mem_map.mp hmem
    rw [← hyn] at hid ⊢
    have hyx : y = x := h.eq_of_id_eq hs (mem_of_mem_accepted (hacc y hy)) (mem_of_mem_accepted hx)
      (hexEncode_inj hid)
    rw [hyx]
  · rintro ⟨step, hstep, hnode⟩
    exact ⟨step, hstep, by rw [hnode]; rfl⟩

theorem Verified.isDescendant_iff {c x : Record} (hc : c ∈ L) (hx : x ∈ P.accepted L) :
    (P.context rules L s).isDescendant P x.id c = true ↔
      c ∈ P.accepted L ∧ c.kind = .candidate ∧ c ≠ x ∧ ∃ report,
        (P.context rules L s).descent P c.id = .ok report ∧
          ∃ step ∈ report.line, step.node = (P.context rules L s).node P x := by
  rw [Queries.isDescendant, Bool.and_eq_true, Bool.and_eq_true, decide_eq_true_eq,
    h.isAccepted_iff hs hc]
  have hne : c.id ≠ x.id ↔ c ≠ x :=
    not_congr ⟨h.eq_of_id_eq hs hc (mem_of_mem_accepted hx), congrArg Record.id⟩
  rw [hne]
  constructor
  · rintro ⟨⟨hcx, hacc, hk⟩, hany⟩
    obtain ⟨line, ancestors, hdescent, hline, hL⟩ := h.descent_exact hs hacc hk
    rw [hdescent] at hany
    have hsub : ∀ y ∈ ancestors, y ∈ P.accepted L := fun y hy =>
      (h.backEdges_earlier hs hacc ((hL.mem y).mp hy)).1
    exact ⟨hacc, hk, hcx, _, hdescent, (h.any_id_iff hs hline hsub hx).mp hany⟩
  · rintro ⟨hacc, hk, hcx, report, hreport, hstep⟩
    refine ⟨⟨hcx, hacc, hk⟩, ?_⟩
    obtain ⟨line, ancestors, hdescent, hline, hL⟩ := h.descent_exact hs hacc hk
    obtain rfl := Except.ok.inj (hdescent.symm.trans hreport)
    have hsub : ∀ y ∈ ancestors, y ∈ P.accepted L := fun y hy =>
      (h.backEdges_earlier hs hacc ((hL.mem y).mp hy)).1
    rw [hdescent]
    exact (h.any_id_iff hs hline hsub hx).mpr hstep

omit h hs in
/-- A loop that pushes one entry for each element that passes a test. -/
theorem foldlM_filter {α β ε : Type} {f : List β → α → Except ε (List β)} {p : α → Bool} {g : α → β}
    {M : List α} (hf : ∀ a ∈ M, ∀ acc, f acc a = .ok (if p a then acc ++ [g a] else acc)) :
    ∀ acc, M.foldlM f acc = .ok (acc ++ (M.filter p).map g) := by
  induction M with
  | nil => simp [pure, Except.pure]
  | cons a M ih =>
    intro acc
    rw [List.foldlM_cons, hf a List.mem_cons_self acc]
    refine (ih (fun b hb => hf b (List.mem_cons_of_mem _ hb)) _).trans ?_
    cases hp : p a
    · simp [hp]
    · simp [hp]

/-- The loop over the log keeps the descendants, in its order. -/
theorem Verified.descendants_eq {x : Record} (hx : x ∈ P.accepted L) :
    (P.context rules L s).descendants P x.id = .ok ⟨(P.context rules L s).node P x,
      (L.filter ((P.context rules L s).isDescendant P x.id)).map ((P.context rules L s).node P)⟩ := by
  refine bind_eq_ok.mpr ⟨x, (h.getAccepted_eq_ok hs).mpr ⟨hx, rfl⟩, bind_eq_ok.mpr ⟨_, ?_, rfl⟩⟩
  refine foldlM_filter ?_ []
  intro r hr acc
  by_cases hskip : r.id = x.id ∨ (P.context rules L s).isAccepted .candidate r = false
  · have hnot : (P.context rules L s).isDescendant P x.id r = false := by
      rcases hskip with hid | hacc
      · simp [Queries.isDescendant, hid]
      · simp [Queries.isDescendant, hacc]
    rw [if_pos hskip, hnot]
    rfl
  · obtain ⟨hid, hcand⟩ := not_or.mp hskip
    rw [Bool.not_eq_false] at hcand
    obtain ⟨hacc, hk⟩ := (h.isAccepted_iff hs hr).mp hcand
    obtain ⟨line, ancestors, hdescent, -⟩ := h.descent_exact hs hacc hk
    have htest : (P.context rules L s).isDescendant P x.id r =
        line.any fun step => step.node.id = hexEncode x.id := by
      simp [Queries.isDescendant, hid, hcand, hdescent]
    rw [if_neg hskip, hdescent, htest]
    refine bind_eq_ok.mpr ⟨_, rfl, ?_⟩
    dsimp only
    split
    · rfl
    · rfl

theorem Verified.descendants_exact {x : Record} (hx : x ∈ P.accepted L) : ∃ descendants : List Record,
    (P.context rules L s).descendants P x.id = .ok ⟨(P.context rules L s).node P x,
      descendants.map ((P.context rules L s).node P)⟩ ∧
    descendants.Sublist L ∧ (descendants.map Record.id).Nodup ∧
    ∀ c, c ∈ descendants ↔ c ∈ P.accepted L ∧ c.kind = .candidate ∧ c ≠ x ∧ ∃ report,
      (P.context rules L s).descent P c.id = .ok report ∧
        ∃ step ∈ report.line, step.node = (P.context rules L s).node P x := by
  refine ⟨_, h.descendants_eq hs hx, List.filter_sublist, ?_, ?_⟩
  · refine h.nodup_ids hs ?_ ((nodup_of_verified h).filter _)
    intro c hc
    obtain ⟨hcL, hdesc⟩ := List.mem_filter.mp hc
    exact ((h.isDescendant_iff hs hcL hx).mp hdesc).1
  · intro c
    rw [List.mem_filter]
    constructor
    · rintro ⟨hc, hdesc⟩
      exact (h.isDescendant_iff hs hc hx).mp hdesc
    · intro hdesc
      have hc := mem_of_mem_accepted hdesc.1
      exact ⟨hc, (h.isDescendant_iff hs hc hx).mpr hdesc⟩

end Lines

/-- **Descent and descendants are exact.** Over an accepted log the line of every accepted Candidate is
found, and lists its ancestors; and the descendants of every accepted record are found, and are the
other accepted Candidates that have it on their lines, in the order of the log. -/
theorem descent_descendants_exact (hs : P.HashSound L) (h : P.Accepts rules L) :
    ∃ Q, P.queries rules L = .ok Q ∧
      (∀ c ∈ P.accepted L, c.kind = .candidate → ∃ (report : DescentReport) (ancestors : List Record),
        Q.descent P c.id = .ok report ∧ report.target = Q.node P c ∧
          report.line.map DescentStep.node = ancestors.map (Q.node P) ∧ P.Line L c ancestors) ∧
      ∀ x ∈ P.accepted L, ∃ (report : DescendantsReport) (descendants : List Record),
        Q.descendants P x.id = .ok report ∧ report.target = Q.node P x ∧
          report.descendants = descendants.map (Q.node P) ∧ descendants.Sublist L ∧
          (descendants.map Record.id).Nodup ∧
          ∀ c, c ∈ descendants ↔ c ∈ P.accepted L ∧ c.kind = .candidate ∧ c ≠ x ∧ ∃ report',
            Q.descent P c.id = .ok report' ∧ ∃ step ∈ report'.line, step.node = Q.node P x := by
  obtain ⟨s, hv⟩ := accepts_iff.mp h
  refine ⟨_, hv.queries_eq, ?_, ?_⟩
  · intro c hc hk
    obtain ⟨line, ancestors, hdescent, hline, hL⟩ := hv.descent_exact hs hc hk
    exact ⟨_, ancestors, hdescent, rfl, hline, hL⟩
  · intro x hx
    obtain ⟨descendants, hfound, hrest⟩ := hv.descendants_exact hs hx
    exact ⟨_, descendants, hfound, rfl, rfl, hrest⟩

/-- A candidate derived from the root candidate. -/
def sampleDerivation : Record :=
  sampleSubject 0xa577c3023c6ed7edda90a0d46a61fede1160fcc395045fa8322a6544b5056c96
    3 byAgent .candidate schemaCandidate
    (payload (⟨⟨⟨.sha1, String.ofList (List.replicate 40 'b'), none⟩, none, .reported⟩, .derivation,
      none, none, none⟩ : CandidateData)) [⟨.cause, sampleCandidate.id⟩]

def lineLog : List Record :=
  [sampleCandidate,
    acceptance 0xed09609f11264ba0b21dc39c03e5b96a429345fa55d390ac3b313900ad984d83 sampleCandidate,
    sampleDerivation,
    acceptance 0x744299d80d7d372d9b9ae2465024ccec5d1f0719231bddde5b23c814c8389be7 sampleDerivation]

def lineHistory : reference.AcceptedLog sampleRules where
  val := lineLog
  property := by
    obtain ⟨s, hv⟩ := accepts_iff.mp evidenceLog_accepts
    have hroot : reference.Accepts sampleRules (lineLog.take 2) :=
      accepts_iff.mpr (hv.take (k := 1) (by decide))
    exact hroot.extend (by decide) (by decide +kernel)

theorem lineLog_accepts : reference.Accepts sampleRules lineLog := lineHistory.property

theorem accepted_lineLog : reference.accepted lineLog = [sampleCandidate, sampleDerivation] := by
  decide +kernel

theorem lineLog_hashSound : reference.HashSound lineLog := by
  obtain ⟨s, hv⟩ := accepts_iff.mp lineLog_accepts
  refine hashSound_of_nodup hv.ids ?_ (by decide +kernel)
  rw [map_schemaId]
  decide +kernel

/-- The root candidate is on the line of the derivation. -/
theorem lineLog_descent : ∃ Q report, reference.queries sampleRules lineLog = .ok Q ∧
    Q.descent reference sampleDerivation.id = .ok report ∧
    ∃ step ∈ report.line, step.node = Q.node reference sampleCandidate := by
  obtain ⟨Q, hQ, hlines, -⟩ := descent_descendants_exact lineLog_hashSound lineLog_accepts
  obtain ⟨report, ancestors, hreport, -, hline, hL⟩ :=
    hlines sampleDerivation (by rw [accepted_lineLog]; simp) rfl
  refine ⟨Q, report, hQ, hreport, ?_⟩
  have hedge : reference.BackEdge lineLog sampleDerivation sampleCandidate := by
    refine ⟨rfl, List.mem_cons_self, ?_⟩
    have hdata : ∃ d, reference.decode CandidateData sampleDerivation.data = some d ∧
        d.basis = .derivation := by decide +kernel
    obtain ⟨d, hd, hb⟩ := hdata
    exact ⟨d, hd, .inr ⟨hb, rfl, List.mem_cons_self⟩⟩
  have hmem : Q.node reference sampleCandidate ∈ report.line.map DescentStep.node := by
    rw [hline]
    exact List.mem_map_of_mem ((hL.mem _).mpr (.single hedge))
  exact List.mem_map.mp hmem

end Bellbook
