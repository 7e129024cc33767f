import Bellbook.Verify.Reference

/-!
# Taint is dependence on a retraction

The state keeps two sets. `retractedRecords` holds the targets of the accepted Retractions, and
`taintedRecords` the records that rest on one of them through accepted records, over any number of
`Use` and `Require` refs.

Ids are enough for this: the reverse dependence index is the relation `RestsOnId` turned around, the
marking loop follows it, and inheritance covers the edges a new record adds
(`Worklist.reaches_add_edges`). `Depends` states the result over records.
-/

namespace Bellbook

open Std

/-- The record carries a `Use` or `Require` ref to the id. -/
def Record.restsOn (a : Record) (id : RecordId) : Prop :=
  ∃ ref ∈ a.refs, ref.type.epistemic = true ∧ ref.target = id

namespace Platform

variable (P : Platform)

/-- Some accepted Retraction names the id as its target. -/
def RetractedIn (L : List Record) (id : RecordId) : Prop :=
  ∃ a ∈ P.accepted L, a.kind = .retraction ∧
    ∃ d, P.decode RetractionData a.data = some d ∧ d.targetId = id

/-- One step of dependence, from an accepted record to a record of the log. -/
def Depends (L : List Record) (a b : Record) : Prop :=
  a ∈ P.accepted L ∧ b ∈ L ∧ a.restsOn b.id

/-- The record rests, through accepted records, on a retracted one. -/
def TaintedIn (L : List Record) (a : Record) : Prop :=
  ∃ b, Relation.TransGen (P.Depends L) a b ∧ P.RetractedIn L b.id

/-- The two sets are what the log says they are. -/
structure TaintExact (L : List Record) (retracted tainted : IdSet) : Prop where
  retracted : ∀ id, id ∈ retracted ↔ P.RetractedIn L id
  tainted : ∀ id, id ∈ tainted ↔ ∃ a ∈ P.accepted L, a.id = id ∧ P.TaintedIn L a

/-- One step of dependence, between ids. -/
def RestsOnId (L : List Record) (x y : RecordId) : Prop :=
  ∃ a ∈ P.accepted L, a.id = x ∧ a.restsOn y

end Platform

variable {P : Platform} {rules : VerifierRules} {L : List Record} {s s' : State} {r : Record}

/-! ## The reverse dependence index -/

theorem mem_dependentsOf_addDependent {id x y : RecordId} {m : IdMap IdSet} {ref : Ref} :
    y ∈ dependentsOf (addDependent id m ref) x ↔
      y ∈ dependentsOf m x ∨ (y = id ∧ ref.type.epistemic = true ∧ ref.target = x) := by
  unfold addDependent
  by_cases he : ref.type.epistemic = true
  · rw [if_pos he]
    by_cases hx : ref.target = x
    · subst hx
      cases hm : m[ref.target]? with
      | none => simp [dependentsOf, hm, he, eq_comm (a := y)]
      | some set => simp [dependentsOf, hm, he, or_comm, eq_comm (a := y)]
    · simp [dependentsOf, ExtTreeMap.getElem?_insert, hx]
  · simp [he]

theorem mem_dependentsOf_foldl {id x y : RecordId} {m : IdMap IdSet} {refs : List Ref} :
    y ∈ dependentsOf (refs.foldl (addDependent id) m) x ↔
      y ∈ dependentsOf m x ∨
        (y = id ∧ ∃ ref ∈ refs, ref.type.epistemic = true ∧ ref.target = x) := by
  induction refs generalizing m with
  | nil => simp
  | cons ref refs ih =>
    rw [List.foldl_cons, ih, mem_dependentsOf_addDependent]
    simp only [List.mem_cons, exists_eq_or_imp]
    tauto

theorem dependentsOf_keys {m : IdMap IdSet} {x : RecordId} (h : dependentsOf m x ≠ []) :
    x ∈ m.keys := by
  rw [ExtTreeMap.mem_keys]
  by_contra hx
  exact h (by simp [dependentsOf, hx])

theorem inheritsTaint_iff : s.inheritsTaint r = true ↔
    ∃ t, r.restsOn t ∧ (t ∈ s.retractedRecords ∨ t ∈ s.taintedRecords) := by
  simp [State.inheritsTaint, Record.restsOn, and_assoc]

/-! ## Marking -/

section Marking

variable {m : IdMap IdSet} {tainted : IdSet}

theorem mem_markTainted {id : RecordId}
    (h : Worklist.Closed (dependentsOf m) tainted [id]) {x : RecordId} :
    x ∈ markTainted m tainted id ↔
      x ∈ tainted ∨ Relation.ReflTransGen (Worklist.Edge (dependentsOf m)) id x := by
  unfold markTainted
  rw [Worklist.mem_mark_iff ExtTreeMap.nodup_keys (fun _ => dependentsOf_keys) h]
  simp

theorem closed_markTainted {id : RecordId}
    (h : Worklist.Closed (dependentsOf m) tainted [id]) :
    Worklist.Closed (dependentsOf m) (markTainted m tainted id) [] :=
  Worklist.closed_mark ExtTreeMap.nodup_keys (fun _ => dependentsOf_keys) h

theorem closed_of_nil {stack : List RecordId} (h : Worklist.Closed (dependentsOf m) tainted []) :
    Worklist.Closed (dependentsOf m) tainted stack :=
  fun x hx y hy => .inl ((h x hx y hy).resolve_right (by simp))

theorem mem_markAllTainted {ids : List RecordId}
    (h : Worklist.Closed (dependentsOf m) tainted []) {x : RecordId} :
    x ∈ markAllTainted m tainted ids ↔
      x ∈ tainted ∨ ∃ z ∈ ids, Relation.ReflTransGen (Worklist.Edge (dependentsOf m)) z x := by
  unfold markAllTainted
  induction ids generalizing tainted with
  | nil => simp
  | cons id ids ih =>
    rw [List.foldl_cons, ih (closed_markTainted (closed_of_nil h)),
      mem_markTainted (closed_of_nil h)]
    simp only [List.mem_cons, exists_eq_or_imp, or_assoc]

end Marking

/-! ## The invariant of a state -/

/-- The index is the dependence relation `E` turned around, and the taint what `E` carries from the
retracted records. -/
structure TaintInv (E : RecordId → RecordId → Prop) (s : State) : Prop where
  dependents : ∀ x y, y ∈ dependentsOf s.epistemicDependents x ↔ E y x
  tainted : ∀ x, x ∈ s.taintedRecords ↔ Worklist.Reaches E (· ∈ s.retractedRecords) x

namespace TaintInv

variable {E : RecordId → RecordId → Prop}

theorem closed (h : TaintInv E s) :
    Worklist.Closed (dependentsOf s.epistemicDependents) s.taintedRecords [] := by
  intro x hx y hy
  rw [h.tainted] at hx ⊢
  exact .inl (.cons ((h.dependents x y).mp hy) (.inr hx))

theorem edge_path {m : IdMap IdSet} (h : ∀ x y, y ∈ dependentsOf m x ↔ E y x) {x y : RecordId} :
    Relation.ReflTransGen (Worklist.Edge (dependentsOf m)) x y ↔ Relation.ReflTransGen E y x := by
  have hedge : Worklist.Edge (dependentsOf m) = Function.swap E := by
    funext a b
    exact propext (h a b)
  rw [hedge, Relation.reflTransGen_swap]

/-- The stage common to all kinds: the record's refs are new edges. -/
theorem accept (h : TaintInv E s) (r : Record) :
    TaintInv (fun x y => E x y ∨ (x = r.id ∧ r.restsOn y)) (s.accept r) := by
  have hdep : ∀ x y, y ∈ dependentsOf (s.accept r).epistemicDependents x ↔
      E y x ∨ (y = r.id ∧ r.restsOn x) := by
    intro x y
    rw [State.accept, mem_dependentsOf_foldl, h.dependents]
    rfl
  refine ⟨hdep, fun x => ?_⟩
  have hinherit : s.inheritsTaint r = true ↔
      ∃ t, r.restsOn t ∧ (t ∈ s.retractedRecords ∨
        Worklist.Reaches E (· ∈ s.retractedRecords) t) := by
    simp only [inheritsTaint_iff, h.tainted]
  have hclosed : Worklist.Closed (dependentsOf (s.accept r).epistemicDependents) s.taintedRecords
      [r.id] := by
    intro x hx y hy
    rcases (hdep x y).mp hy with hE | ⟨rfl, -⟩
    · exact .inl ((h.closed x hx y ((h.dependents x y).mpr hE)).resolve_right (by simp))
    · exact .inr (by simp)
  have hret : (s.accept r).retractedRecords = s.retractedRecords := rfl
  rw [hret, Worklist.reaches_add_edges (fun _ _ => Iff.rfl), ← hinherit, ← h.tainted,
    ← edge_path hdep]
  cases hi : s.inheritsTaint r with
  | false => simp [State.accept, hi]
  | true =>
    have : (s.accept r).taintedRecords =
        markTainted (s.accept r).epistemicDependents s.taintedRecords r.id := by
      simp [State.accept, hi]
    rw [this, mem_markTainted hclosed]
    simp

/-- A retraction: one more target. -/
theorem retract (h : TaintInv E s) (d : RetractionData) : TaintInv E (s.foldRetraction d) := by
  refine ⟨h.dependents, fun x => ?_⟩
  have hmem : (· ∈ (s.foldRetraction d).retractedRecords) =
      fun y => y = d.targetId ∨ y ∈ s.retractedRecords := by
    funext y
    exact propext Worklist.mem_insert_iff
  rw [hmem, Worklist.reaches_add_target, ← h.tainted, Relation.TransGen.tail'_iff]
  show x ∈ markAllTainted _ _ _ ↔ _
  rw [mem_markAllTainted h.closed]
  simp only [edge_path h.dependents, h.dependents, and_comm]

end TaintInv

/-- Only a Retraction touches these fields after the common stage. -/
theorem Folded.taint_cases (h : Folded P s r s') :
    (r.kind = .retraction ∧ ∃ d, P.decode RetractionData r.data = some d ∧
        s' = s.foldRetraction d) ∨
      (r.kind ≠ .retraction ∧ s'.retractedRecords = s.retractedRecords ∧
        s'.taintedRecords = s.taintedRecords ∧
        s'.epistemicDependents = s.epistemicDependents) := by
  cases h with
  | retraction hk hd => exact .inl ⟨hk, _, hd, rfl⟩
  | @refusal hk data =>
    obtain ⟨_, _, _, _, heq⟩ := s.foldRefusal_eq data
    exact .inr ⟨by simp [hk], by simp [heq]⟩
  | @response hk data =>
    obtain ⟨_, _, _, heq⟩ := s.foldResponse_eq data
    exact .inr ⟨by simp [hk], by simp [heq]⟩
  | @requirement hk data =>
    obtain ⟨_, _, heq⟩ := s.foldRequirement_eq r data
    exact .inr ⟨by simp [hk], by simp [heq]⟩
  | inert hk => exact .inr ⟨by rcases hk with hk | hk | hk <;> simp [hk], rfl, rfl, rfl⟩
  | request hk | action hk | result hk | capability hk | approval hk | summary hk | usage hk
  | plan hk | selection hk => exact .inr ⟨by simp [hk], rfl, rfl, rfl⟩

/-! ## Runs -/

theorem restsOnId_concat {M : List Record} (h : P.accepted M = P.accepted L ++ [r])
    (x y : RecordId) :
    P.RestsOnId M x y ↔ P.RestsOnId L x y ∨ (x = r.id ∧ r.restsOn y) := by
  simp only [Platform.RestsOnId, h, List.mem_append, List.mem_singleton, or_and_right, exists_or,
    exists_eq_left, eq_comm (a := r.id)]

theorem retractedIn_concat {M : List Record} (h : P.accepted M = P.accepted L ++ [r])
    (id : RecordId) :
    P.RetractedIn M id ↔ P.RetractedIn L id ∨
      (r.kind = .retraction ∧ ∃ d, P.decode RetractionData r.data = some d ∧ d.targetId = id) := by
  simp only [Platform.RetractedIn, h, List.mem_append, List.mem_singleton, or_and_right, exists_or,
    exists_eq_left]

theorem Platform.RetractedIn.mono {M : List Record} (hsub : P.accepted L ⊆ P.accepted M)
    {id : RecordId} (h : P.RetractedIn L id) : P.RetractedIn M id := by
  obtain ⟨a, ha, h⟩ := h
  exact ⟨a, hsub ha, h⟩

namespace Replays

theorem retracted (h : Replays P rules L s) (id : RecordId) :
    id ∈ s.retractedRecords ↔ P.RetractedIn L id := by
  induction h with
  | nil => simp [State.empty, Platform.RetractedIn, Platform.accepted]
  | @snoc L s s' r v hrun hstep ih =>
    rcases hrun.step_cases hstep with ⟨hacc, -, rfl⟩ | ⟨hacc, -, t, hf, rfl⟩
    · simpa only [Platform.RetractedIn, hacc] using ih
    · rw [retractedIn_concat hacc, ← ih]
      rcases hf.taint_cases with ⟨hk, d, hd, rfl⟩ | ⟨hk, hret, -⟩
      · simp only [State.foldRetraction, State.accept, Worklist.mem_insert_iff, hk, hd,
          Option.some.injEq, exists_eq_left', true_and, or_comm, eq_comm (a := id)]
      · simp [hret, State.accept, hk]

/-- **The taint invariant of a run**, at every length of it. -/
theorem taintInv (h : Replays P rules L s) : TaintInv (P.RestsOnId L) s := by
  induction h with
  | nil =>
    refine ⟨fun x y => ?_, fun x => ?_⟩
    · simp [State.empty, dependentsOf, Platform.RestsOnId, Platform.accepted]
    · simp [State.empty, Worklist.Reaches]
  | @snoc L s s' r v hrun hstep ih =>
    rcases hrun.step_cases hstep with ⟨hacc, -, rfl⟩ | ⟨hacc, -, t, hf, rfl⟩
    · have : P.RestsOnId (L ++ [r, v]) = P.RestsOnId L := by
        funext x y
        simp only [Platform.RestsOnId, hacc]
      rw [this]
      exact ⟨ih.dependents, ih.tainted⟩
    · have : P.RestsOnId (L ++ [r, v]) =
          fun x y => P.RestsOnId L x y ∨ (x = r.id ∧ r.restsOn y) := by
        funext x y
        exact propext (restsOnId_concat hacc x y)
      rw [this]
      have hstage := ih.accept r
      rcases hf.taint_cases with ⟨-, d, -, rfl⟩ | ⟨-, hret, htaint, hdep⟩
      · exact ⟨(hstage.retract d).dependents, (hstage.retract d).tainted⟩
      · exact ⟨by simpa [hdep] using hstage.dependents,
          by simpa [hret, htaint] using hstage.tainted⟩

/-- Only accepted records are retracted. -/
theorem retracted_accepted (h : Replays P rules L s) {id : RecordId}
    (hid : id ∈ s.retractedRecords) : id ∈ s.acceptedRecords := by
  induction h with
  | nil => simp [State.empty] at hid
  | @snoc L s s' r v hrun hstep ih =>
    rcases hrun.step_cases hstep with ⟨-, -, rfl⟩ | ⟨-, hc, t, hf, rfl⟩
    · exact ih hid
    · have hset : t.acceptedRecords = s.acceptedRecords.insert r.id := hf.acceptedRecords
      show id ∈ t.acceptedRecords
      rw [hset, Worklist.mem_insert_iff]
      right
      rcases hf.taint_cases with ⟨hk, d, hd, rfl⟩ | ⟨-, hret, -⟩
      · rcases Worklist.mem_insert_iff.mp hid with rfl | hid
        · rw [checkRecord_subject hstep.subject] at hc
          have hkind := (checkSubject_passes hc).kind
          simp only [Platform.checkKindSpecific, hk, Platform.checkRetraction, hd,
            orReject_eq_none, orElse_none_iff, rejectIf_eq_none, not_not, Option.some.injEq,
            exists_eq_left'] at hkind
          obtain ⟨-, x, -, hacc, -⟩ := hkind
          exact hacc
        · exact ih hid
      · simp only [hret] at hid
        exact ih hid

end Replays

/-! ## From ids to records -/

theorem depends_of_restsOnId {x y : RecordId} (h : Relation.TransGen (P.RestsOnId L) x y)
    (hrun : Replays P rules L s) {b : Record} (hb : b ∈ P.accepted L) (hid : b.id = y) :
    ∃ a ∈ P.accepted L, a.id = x ∧ Relation.TransGen (P.Depends L) a b := by
  induction h using Relation.TransGen.head_induction_on with
  | @single x hxy =>
    obtain ⟨a, ha, haid, hrests⟩ := hxy
    exact ⟨a, ha, haid, .single ⟨ha, (hrun.mem_of_mem_accepted hb).1, hid ▸ hrests⟩⟩
  | @head x z hxz _ ih =>
    obtain ⟨a, ha, haid, hrests⟩ := hxz
    obtain ⟨c, hc, hcid, hpath⟩ := ih
    exact ⟨a, ha, haid, .head ⟨ha, (hrun.mem_of_mem_accepted hc).1, hcid ▸ hrests⟩ hpath⟩

theorem restsOnId_of_depends {a b : Record} (h : Relation.TransGen (P.Depends L) a b) :
    Relation.TransGen (P.RestsOnId L) a.id b.id :=
  h.lift Record.id fun x _ hxy => ⟨x, hxy.1, rfl, hxy.2.2⟩

theorem Replays.taintExact (h : Replays P rules L s) :
    P.TaintExact L s.retractedRecords s.taintedRecords := by
  refine ⟨h.retracted, fun id => ?_⟩
  rw [h.taintInv.tainted]
  constructor
  · rintro ⟨y, hpath, hy⟩
    obtain ⟨b, hb, rfl⟩ := h.mem_acceptedRecords.mp (h.retracted_accepted hy)
    obtain ⟨a, ha, haid, hdep⟩ := depends_of_restsOnId hpath h hb rfl
    exact ⟨a, ha, haid, b, hdep, (h.retracted b.id).mp hy⟩
  · rintro ⟨a, -, rfl, b, hdep, hb⟩
    exact ⟨b.id, restsOnId_of_depends hdep, (h.retracted b.id).mpr hb⟩

end Bellbook
