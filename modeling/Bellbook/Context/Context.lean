import Bellbook.Verify.Registers
import Bellbook.Verify.Temporal

/-!
# The working set of a proposer (`context/context.rs`)

`buildContextWith` selects the records of a thread that a proposer is shown: accepted, neither replaced
nor retracted, not tainted unless the policy asks for it, newest first, and at most as many as the rules
allow.

* `context_exact` says what is in it, in terms of the accepted records of the log.
* `context_grounded` says that nothing in it rests on a retraction, and that what has left it stays out.
* `context_step` says how one more pair changes it.
-/

namespace Bellbook

open Std

/-! ## The code -/

inductive ContextPolicy
  | excludeTainted
  | includeTainted
  deriving DecidableEq

/-- The context shown to the proposer. -/
structure Context where
  records : List Record
  usageFeedback : ExtTreeMap (RecordId × String) UsageOutcomeCounts
  taintedRecords : IdSet
  deriving DecidableEq

/-- The filter of step 1. -/
def State.selects (s : State) (thread : ThreadId) (policy : ContextPolicy) (r : Record) : Bool :=
  r.thread = thread && r.kind ≠ .verdict && r.id ∈ s.acceptedRecords && r.id ∉ s.replacedRecords &&
    r.id ∉ s.retractedRecords && (policy = .includeTainted || r.id ∉ s.taintedRecords)

/-- Time descending, then id ascending. -/
def contextOrder : Record → Record → Ordering :=
  compareLex (fun a b => compare b.time a.time) (compareOn Record.id)

def contextLE (a b : Record) : Bool := (contextOrder a b).isLE

def recordIds (records : List Record) : IdSet := records.foldl (fun ids r => ids.insert r.id) ∅

/-- `build_context_with`. -/
def buildContextWith (records : List Record) (s : State) (rules : VerifierRules) (thread : ThreadId)
    (policy : ContextPolicy) : Context :=
  let selected := (records.filter (s.selects thread policy)).mergeSort contextLE
  let contextRecords := selected.take rules.maxContextRecords.toNat
  let contextIds := recordIds contextRecords
  { records := contextRecords
    usageFeedback := s.usageCounts.filter fun key _ => key.1 ∈ contextIds
    taintedRecords := recordIds (contextRecords.filter fun r => r.id ∈ s.taintedRecords) }

/-- `build_context`. -/
def buildContext (records : List Record) (s : State) (rules : VerifierRules) (thread : ThreadId) :
    Context :=
  buildContextWith records s rules thread .excludeTainted

/-! ## What a context is for -/

namespace Platform

variable (P : Platform)

/-- An accepted record of the thread that is current, stands, and rests on nothing retracted unless the
policy lets it. -/
structure Live (L : List Record) (thread : ThreadId) (policy : ContextPolicy) (r : Record) : Prop where
  accepted : r ∈ P.accepted L
  thread : r.thread = thread
  current : ∀ a ∈ P.accepted L, findReplaceRef a.refs ≠ some r.id
  stands : ¬P.RetractedIn L r.id
  grounded : policy = .includeTainted ∨ ¬P.TaintedIn L r

/-- The context is the newest of the live records, with the reports on them and the labels of those that
are tainted. -/
structure ContextExact (L : List Record) (cap : Nat) (thread : ThreadId) (policy : ContextPolicy)
    (c : Context) : Prop where
  records : ∃ live : List Record, live.Sublist (P.accepted L) ∧
    (∀ r, r ∈ live ↔ P.Live L thread policy r) ∧ c.records = live.reverse.take cap
  feedback : ∀ (key : RecordId × String) (counts : UsageOutcomeCounts),
    c.usageFeedback[key]? = some counts ↔ (∃ r ∈ c.records, r.id = key.1) ∧
      tallied (P.outcomes (P.accepted L) key) = some counts
  tainted : ∀ id, id ∈ c.taintedRecords ↔ ∃ r ∈ c.records, r.id = id ∧ P.TaintedIn L r

end Platform

/-! ## The selection -/

instance : TransCmp contextOrder :=
  have : TransCmp fun a b : Record => compare b.time a.time := @TransCmp.opposite _ (compareOn Record.time) _
  inferInstanceAs (TransCmp (compareLex _ _))

theorem mem_recordIds {records : List Record} {id : RecordId} :
    id ∈ recordIds records ↔ ∃ r ∈ records, r.id = id := by
  suffices h : ∀ ids : IdSet, id ∈ records.foldl (fun ids r => ids.insert r.id) ids ↔
      id ∈ ids ∨ ∃ r ∈ records, r.id = id by
    simpa [recordIds] using h ∅
  induction records with
  | nil => simp
  | cons r records ih =>
    intro ids
    rw [List.foldl_cons, ih, Worklist.mem_insert_iff]
    simp only [List.mem_cons, exists_eq_or_imp]
    grind

theorem contextOrder_lt {a b : Record} (h : b.time.toNat < a.time.toNat) : contextOrder a b = .lt := by
  have htime : compare b.time a.time = .lt := by
    simp [compare, compareOfLessAndEq, UInt64.lt_iff_toNat_lt, h]
  simp [contextOrder, compareLex, htime]

theorem contextLE_time {a b : Record} (h : contextLE a b = true) : b.time.toNat ≤ a.time.toNat := by
  by_contra hlt
  have hgt := OrientedCmp.gt_of_lt (contextOrder_lt (Nat.lt_of_not_le hlt))
  simp [contextLE, hgt] at h

/-- Records of ascending times are sorted by being reversed. -/
theorem mergeSort_contextLE {records : List Record}
    (h : records.Pairwise fun a b => a.time.toNat < b.time.toNat) :
    records.mergeSort contextLE = records.reverse := by
  have hperm : (records.mergeSort contextLE).Perm records.reverse :=
    (List.mergeSort_perm records contextLE).trans (List.reverse_perm records).symm
  have hsorted : (records.mergeSort contextLE).Pairwise fun a b => contextLE a b = true := by
    apply List.pairwise_mergeSort
    · intro a b c hab hbc
      exact TransCmp.isLE_trans hab hbc
    · intro a b
      cases hab : contextOrder a b with
      | lt => simp [contextLE, hab]
      | eq => simp [contextLE, hab]
      | gt => simp [contextLE, OrientedCmp.lt_of_gt hab]
  have hreverse : records.reverse.Pairwise fun a b => contextLE a b = true :=
    (List.pairwise_reverse.mpr h).imp fun hlt => by simp [contextLE, contextOrder_lt hlt]
  apply List.Perm.eq_of_pairwise _ hsorted hreverse hperm
  intro a b ha hb hab hba
  -- the times tell the records apart
  have hnodup : (records.map fun r => r.time.toNat).Nodup :=
    List.pairwise_map.mpr (h.imp fun hlt => Nat.ne_of_lt hlt)
  apply List.inj_on_of_nodup_map hnodup (List.mem_mergeSort.mp ha) (List.mem_reverse.mp hb)
  have := contextLE_time hab
  have := contextLE_time hba
  omega

section

variable {P : Platform} {rules : VerifierRules} {L M : List Record} {s s' : State} {r v : Record}

/-- The filter, on an accepted record. -/
def State.keeps (s : State) (thread : ThreadId) (policy : ContextPolicy) (r : Record) : Bool :=
  r.thread = thread && r.id ∉ s.replacedRecords && r.id ∉ s.retractedRecords &&
    (policy = .includeTainted || r.id ∉ s.taintedRecords)

theorem Replays.filter_selects (h : Replays P rules L s) (thread : ThreadId) (policy : ContextPolicy) :
    L.filter (s.selects thread policy) = (P.accepted L).filter (s.keeps thread policy) := by
  rw [← h.filter_accepted, List.filter_filter]
  apply List.filter_congr
  intro x hx
  simp only [State.selects, State.keeps]
  grind

theorem Verified.context_records (h : Verified P rules L s) (limits : VerifierRules) (thread : ThreadId)
    (policy : ContextPolicy) : (buildContextWith L s limits thread policy).records =
      ((P.accepted L).filter (s.keeps thread policy)).reverse.take limits.maxContextRecords.toNat := by
  simp only [buildContextWith, h.run.filter_selects]
  rw [mergeSort_contextLE (h.accepted_pairwise.sublist List.filter_sublist)]

theorem Verified.mem_tainted (h : Verified P rules L s) {a : Record} (ha : a ∈ P.accepted L) :
    a.id ∈ s.taintedRecords ↔ P.TaintedIn L a := by
  rw [h.run.taintExact.tainted]
  constructor
  · rintro ⟨b, hb, hid, htaint⟩
    obtain rfl := h.run.eq_of_accepted_id hb ha hid
    exact htaint
  · intro htaint
    exact ⟨a, ha, rfl, htaint⟩

/-- What the filter keeps are the live records. -/
theorem Verified.keeps_iff (h : Verified P rules L s) {thread : ThreadId} {policy : ContextPolicy}
    {a : Record} (ha : a ∈ P.accepted L) : s.keeps thread policy a = true ↔ P.Live L thread policy a := by
  simp only [State.keeps, Bool.and_eq_true, Bool.or_eq_true, decide_eq_true_eq, h.mem_tainted ha,
    h.run.retracted, h.registersInv.replaced]
  constructor
  · rintro ⟨⟨⟨hthread, hcurrent⟩, hstands⟩, hgrounded⟩
    exact ⟨ha, hthread, fun b hb hid => hcurrent ⟨b, hb, hid⟩, hstands, hgrounded⟩
  · intro hlive
    exact ⟨⟨⟨hlive.thread, fun ⟨b, hb, hid⟩ => hlive.current b hb hid⟩, hlive.stands⟩, hlive.grounded⟩

theorem Verified.mem_keeps (h : Verified P rules L s) {thread : ThreadId} {policy : ContextPolicy}
    {a : Record} : a ∈ (P.accepted L).filter (s.keeps thread policy) ↔ P.Live L thread policy a := by
  rw [List.mem_filter]
  constructor
  · intro ⟨ha, hkeep⟩
    exact (h.keeps_iff ha).mp hkeep
  · intro hlive
    exact ⟨hlive.accepted, (h.keeps_iff hlive.accepted).mpr hlive⟩

theorem Verified.live_of_mem (h : Verified P rules L s) {limits : VerifierRules} {thread : ThreadId}
    {policy : ContextPolicy} (hr : r ∈ (buildContextWith L s limits thread policy).records) :
    P.Live L thread policy r := by
  rw [h.context_records] at hr
  exact h.mem_keeps.mp (List.mem_reverse.mp (List.mem_of_mem_take hr))

theorem Verified.contextExact (h : Verified P rules L s) (limits : VerifierRules) (thread : ThreadId)
    (policy : ContextPolicy) : P.ContextExact L limits.maxContextRecords.toNat thread policy
      (buildContextWith L s limits thread policy) := by
  constructor
  · exact ⟨_, List.filter_sublist, fun _ => h.mem_keeps, h.context_records limits thread policy⟩
  · intro key counts
    simp only [buildContextWith, ExtTreeMap.getElem?_filter', Option.filter_eq_some_iff,
      h.registersInv.usage, decide_eq_true_eq, mem_recordIds]
    exact and_comm
  · intro id
    have hiff : id ∈ (buildContextWith L s limits thread policy).taintedRecords ↔
        ∃ r ∈ (buildContextWith L s limits thread policy).records, r.id ∈ s.taintedRecords ∧ r.id = id := by
      simp only [buildContextWith, mem_recordIds, List.mem_filter, decide_eq_true_eq, and_assoc]
    rw [hiff]
    constructor
    · rintro ⟨r, hr, htaint, hid⟩
      exact ⟨r, hr, hid, (h.mem_tainted (h.live_of_mem hr).accepted).mp htaint⟩
    · rintro ⟨r, hr, hid, htaint⟩
      exact ⟨r, hr, (h.mem_tainted (h.live_of_mem hr).accepted).mpr htaint, hid⟩

/-- **The context is exact.** On an accepted log, with the state rebuilt from it, the context of a thread
is the newest of its live records, with exactly the reports on them and the labels of the tainted ones. -/
theorem context_exact (h : P.Accepts rules L) : ∃ s, P.buildStateUnchecked L = some s ∧
    ∀ (limits : VerifierRules) (thread : ThreadId) (policy : ContextPolicy),
      P.ContextExact L limits.maxContextRecords.toNat thread policy
        (buildContextWith L s limits thread policy) := by
  obtain ⟨s, hv⟩ := accepts_iff.mp h
  exact ⟨s, hv.run.build, hv.contextExact⟩

theorem workLog_context : ∃ s, reference.buildStateUnchecked workLog = some s ∧
    reference.ContextExact workLog 8 1 .excludeTainted (buildContext workLog s workRules 1) := by
  obtain ⟨s, hbuild, hexact⟩ := context_exact workLog_accepts
  exact ⟨s, hbuild, hexact workRules 1 .excludeTainted⟩

/-! ## Over a run -/

/-- What is live later was live before. -/
theorem Verified.live_before (ht : Verified P rules L s) (h : Verified P rules (L ++ M) s') {thread : ThreadId}
    {policy : ContextPolicy} (hr : r ∈ L) (hlive : P.Live (L ++ M) thread policy r) :
    P.Live L thread policy r := by
  have hacc := ht.accepted_of_mem_left h hr hlive.accepted
  have hsub := accepted_mono ht.run (List.prefix_append L M)
  refine ⟨hacc, hlive.thread, fun a ha => hlive.current a (hsub ha), fun hret => ?_, ?_⟩
  · exact hlive.stands (hret.mono hsub)
  · rcases hlive.grounded with hpolicy | hgrounded
    · exact .inl hpolicy
    · right
      intro htaint
      have hid := (ht.mem_tainted hacc).mpr htaint
      exact hgrounded ((h.mem_tainted hlive.accepted).mp ((ht.run.marks h.run).tainted _ hid))

/-- A live record is shown, unless the context is full of newer ones. -/
theorem Verified.shown_of_live (h : Verified P rules L s) {limits : VerifierRules} {thread : ThreadId}
    {policy : ContextPolicy} (hlive : P.Live L thread policy r) :
    r ∈ (buildContextWith L s limits thread policy).records ∨
      (buildContextWith L s limits thread policy).records.length = limits.maxContextRecords.toNat ∧
        ∀ x ∈ (buildContextWith L s limits thread policy).records, r.time < x.time := by
  rw [h.context_records]
  have hmem := List.mem_reverse.mpr (h.mem_keeps.mpr hlive)
  have hsorted : ((P.accepted L).filter (s.keeps thread policy)).reverse.Pairwise
      fun a b => b.time.toNat < a.time.toNat :=
    List.pairwise_reverse.mpr (h.accepted_pairwise.sublist List.filter_sublist)
  generalize ((P.accepted L).filter (s.keeps thread policy)).reverse = live at hmem hsorted ⊢
  rw [← List.take_append_drop limits.maxContextRecords.toNat live] at hmem hsorted
  rcases List.mem_append.mp hmem with hr | hr
  · exact .inl hr
  · right
    constructor
    · -- something is left over, so the cap is met
      rw [List.length_take]
      have hpos := List.length_pos_of_mem hr
      rw [List.length_drop] at hpos
      omega
    · intro x hx
      exact UInt64.lt_iff_toNat_lt.mpr ((List.pairwise_append.mp hsorted).2.2 x hx r hr)

/-- Unless it retracts or replaces, one more record changes nothing about the older ones. -/
theorem Verified.live_after (hs : P.HashSound (L ++ [r, v])) (h : Verified P rules L s)
    (h' : Verified P rules (L ++ [r, v]) s')
    (hno : r ∈ P.accepted (L ++ [r, v]) → r.kind ≠ .retraction ∧ findReplaceRef r.refs = none)
    {thread : ThreadId} {policy : ContextPolicy} {x : Record} (hlive : P.Live L thread policy x) :
    P.Live (L ++ [r, v]) thread policy x := by
  have hret {id : RecordId} (hid : P.RetractedIn (L ++ [r, v]) id) : P.RetractedIn L id :=
    h'.retractedIn_left (fun hr => (hno hr.1).1 hr.2) hid
  have hmono := accepted_mono h.run (List.prefix_append L [r, v])
  refine ⟨hmono hlive.accepted, hlive.thread, fun a ha => ?_, fun hid => hlive.stands (hret hid), ?_⟩
  · obtain ⟨k, hk⟩ := h.run.even
    rw [accepted_append hk] at ha
    rcases List.mem_append.mp ha with ha | ha
    · exact hlive.current a ha
    · -- the new record replaces nothing
      have har : a = r := by
        simp only [Platform.accepted] at ha
        split at ha
        · exact List.mem_singleton.mp ha
        · cases ha
      subst har
      simp [(hno (by rw [accepted_append hk]; exact List.mem_append_right _ ha)).2]
  · rcases hlive.grounded with hpolicy | hgrounded
    · exact .inl hpolicy
    · right
      intro htaint
      have hid := (h'.mem_tainted (hmono hlive.accepted)).mpr htaint
      exact hgrounded ((h.mem_tainted hlive.accepted).mp
        (h.tainted_left h' hs (fun _ => hret) hlive.accepted hid))

theorem take_cons_take {α : Type} (n : Nat) (a : α) (l : List α) :
    (a :: l.take n).take n = (a :: l).take n := by
  cases n with
  | zero => rfl
  | succ n => simp [List.take_take]

/-- **A context can be kept up to date.** A rejected record leaves it as it is. An accepted one that neither
retracts nor replaces is put in front if it is live, and pushes out the oldest record of a full context. -/
theorem context_step (hs : P.HashSound (L ++ [r, v])) (h : P.Accepts rules (L ++ [r, v])) :
    ∃ s s', P.buildStateUnchecked L = some s ∧ P.buildStateUnchecked (L ++ [r, v]) = some s' ∧
      ∀ (limits : VerifierRules) (thread : ThreadId) (policy : ContextPolicy),
        (r ∉ P.accepted (L ++ [r, v]) → buildContextWith (L ++ [r, v]) s' limits thread policy =
          buildContextWith L s limits thread policy) ∧
        (r.kind ≠ .retraction → findReplaceRef r.refs = none →
          (P.Live (L ++ [r, v]) thread policy r →
            (buildContextWith (L ++ [r, v]) s' limits thread policy).records =
              (r :: (buildContextWith L s limits thread policy).records).take
                limits.maxContextRecords.toNat) ∧
          (¬P.Live (L ++ [r, v]) thread policy r →
            (buildContextWith (L ++ [r, v]) s' limits thread policy).records =
              (buildContextWith L s limits thread policy).records)) := by
  obtain ⟨s', hv'⟩ := accepts_iff.mp h
  obtain ⟨s, hv, -, -, -, -, hstep⟩ := Verified.snoc_iff.mp hv'
  refine ⟨s, s', hv.run.build, hv'.run.build, fun limits thread policy => ?_⟩
  rcases hv.run.step_cases hstep with ⟨hacc, -, rfl⟩ | ⟨hacc, -, -⟩
  · have hsame : buildContextWith (L ++ [r, v]) { s with appliedUpTo := v.time } limits thread policy =
        buildContextWith L s limits thread policy := by
      simp only [buildContextWith, hv'.run.filter_selects, hv.run.filter_selects, hacc]
      rfl
    refine ⟨fun _ => hsame, fun _ _ => ⟨fun hlive => ?_, fun _ => by rw [hsame]⟩⟩
    -- a rejected record is not live
    obtain ⟨hmem, hk⟩ := hv.run.mem_of_mem_accepted (hacc ▸ hlive.accepted)
    exact absurd rfl (hv.run.fresh hstep hmem hk)
  · have hr : r ∈ P.accepted (L ++ [r, v]) := by rw [hacc]; exact List.mem_append_right _ List.mem_cons_self
    refine ⟨fun hrej => absurd hr hrej, fun hk hrep => ?_⟩
    have hkeeps : (P.accepted L).filter (s'.keeps thread policy) =
        (P.accepted L).filter (s.keeps thread policy) := by
      apply List.filter_congr
      intro x hx
      rw [Bool.eq_iff_iff, hv.keeps_iff hx,
        hv'.keeps_iff (accepted_mono hv.run (List.prefix_append L _) hx)]
      exact ⟨hv.live_before hv' (mem_of_mem_accepted hx), hv.live_after hs hv' fun _ => ⟨hk, hrep⟩⟩
    rw [hv'.context_records, hv.context_records, hacc, List.filter_append, hkeeps, List.reverse_append]
    constructor
    · intro hlive
      rw [List.filter_cons_of_pos ((hv'.keeps_iff hr).mpr hlive), take_cons_take]
      rfl
    · intro hdead
      rw [List.filter_cons_of_neg fun hkeep => hdead ((hv'.keeps_iff hr).mp hkeep)]
      rfl

/-- The log of a request with a capability. -/
def grantLog : List Record :=
  sampleRound ++ [sampleCapability, acceptance
    0x57c6ed812b5fd90ec47cab46ad86ef6a320bb7f3dc6d085fd6a4fce200bf24d7 sampleCapability]

theorem grantLog_prefix : grantLog <+: sampleLog := ⟨sampleLog.drop 4, rfl⟩

theorem accepted_grantLog : reference.accepted grantLog = [sampleRequest, sampleCapability] := by
  decide +kernel

theorem grantLog_live : reference.Live grantLog 1 .excludeTainted sampleCapability := by
  have hret (id : RecordId) : ¬reference.RetractedIn grantLog id := by
    rintro ⟨a, ha, hk, -⟩
    rw [accepted_grantLog] at ha
    rcases List.mem_pair.mp ha with rfl | rfl <;> cases hk
  refine ⟨?_, rfl, fun a ha => ?_, hret _, .inr fun ⟨b, _, hb⟩ => hret _ hb⟩
  · rw [accepted_grantLog]
    exact List.mem_cons_of_mem _ List.mem_cons_self
  · rw [accepted_grantLog] at ha
    rcases List.mem_pair.mp ha with rfl | rfl <;> exact nofun

theorem grantLog_context : ∃ s s', reference.buildStateUnchecked sampleRound = some s ∧
    reference.buildStateUnchecked grantLog = some s' ∧
    (buildContext grantLog s' sampleRules 1).records =
      (sampleCapability :: (buildContext sampleRound s sampleRules 1).records).take 8 := by
  obtain ⟨t, hv⟩ := accepts_iff.mp sampleLog_accepts
  have haccepts : reference.Accepts sampleRules grantLog := accepts_iff.mpr (hv.take (k := 2) (by decide))
  obtain ⟨s, s', hbuild, hbuild', hcontext⟩ :=
    context_step (sampleLog_hashSound.mono grantLog_prefix.subset) haccepts
  exact ⟨s, s', hbuild, hbuild', ((hcontext sampleRules 1 .excludeTainted).2 (by decide) rfl).1 grantLog_live⟩

end

end Bellbook
