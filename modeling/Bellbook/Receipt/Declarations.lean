import Bellbook.Receipt.Delivery

/-!
# Declared profiles

A receipt may claim profiles. The claim is evaluated, never trusted: the declarations of a receipt have no
part in its verdict, every profile that is declared or required has one result, and a declared one is met only
if the evaluation is conformant and the declaration names the table that was evaluated
(`declarations_untrusted`). What an honest producer declares (`withDeclaredProfiles`) is reported as declared and
matching, and the report is otherwise that of the plain export (`declared_export_validates`).
-/

namespace Bellbook

open Std

/-- `known_profiles`. -/
def knownProfiles : List String := [bellbookCoreV1, deliveryReceiptV1, bellbookCoreSignedV1]

/-- Why `with_declared_profiles` fails. -/
inductive DeclareError where
  | repeated (id : String)
  | unknown (id : String)

namespace Platform

variable (P : Platform)

/-- `profile_ref`. -/
def profileRef (id : String) : Option ProfileRef :=
  (profileTable id).map fun t => { id := t.id, version := t.version, hash := P.profileHash t }

/-- `Receipt::with_declared_profiles`. -/
def withDeclaredProfiles : Receipt → List String → Except DeclareError Receipt
  | r, [] => .ok r
  | r, id :: ids =>
    if r.profiles.any fun p => p.id = id then .error (.repeated id)
    else match P.profileRef id with
      | none => .error (.unknown id)
      | some decl => withDeclaredProfiles { r with profiles := r.profiles ++ [decl] } ids

/-- The declarations are those of a producer that knows the profiles. -/
def Genuine (r : Receipt) : Prop := ∀ decl ∈ r.profiles, P.profileRef decl.id = some decl

/-- The results of all the profiles that are asked for: the declared ones, then each other one that is required,
once. -/
def profileResults (r : Receipt) (report : Report) (required : List String) : List ProfileResult :=
  (r.profiles.map fun decl => P.evaluateDeclared decl r report) ++
    (required.filter fun id => id ∉ r.profiles.map ProfileRef.id).eraseDups.map fun id =>
      P.evaluateProfile id r report

end Platform

/-- The receipt, without its declarations. -/
def Receipt.undeclared (r : Receipt) : Receipt := { r with profiles := [] }

def Report.withProfiles (report : Report) (results : List ProfileResult) : Report :=
  { report with profiles := results }

@[simp] theorem Report.profiles_withProfiles (report : Report) (results : List ProfileResult) :
    (report.withProfiles results).profiles = results := rfl

/-- A report apart from the profiles. -/
def Report.verdict (report : Report) : Report := report.withProfiles []

@[simp] theorem Report.verdict_withProfiles (report : Report) (results : List ProfileResult) :
    (report.withProfiles results).verdict = report.verdict := rfl

/-- The result of a profile that was declared by someone who knows it. -/
def ProfileResult.asDeclared (result : ProfileResult) : ProfileResult :=
  { result with declared := true, declarationMatches := some true }

variable {P : Platform} {r : Receipt} {report : Report} {limits : ValidationLimits} {bytes : Bytes}

/-! ## One profile -/

theorem profileTable_id {id : String} {t : ProfileTable} (h : profileTable id = some t) : t.id = id := by
  unfold profileTable at h
  split at h
  · next heq => cases h; exact heq.symm
  · split at h
    · next heq => cases h; exact heq.symm
    · split at h
      · next heq => cases h; exact heq.symm
      · cases h

theorem evaluateOver_fields (t : ProfileTable) (clauses : State → List ClauseResult) :
    (P.evaluateOver t r report clauses).id = t.id ∧
      (P.evaluateOver t r report clauses).hash = P.profileHash t ∧
      (P.evaluateOver t r report clauses).declarationMatches = none := by
  unfold Platform.evaluateOver
  split
  · exact ⟨rfl, rfl, rfl⟩
  · split <;> exact ⟨rfl, rfl, rfl⟩

/-- What a result says of the profile that was evaluated. -/
theorem evaluateProfile_fields (id : String) : (P.evaluateProfile id r report).id = id ∧
    (P.evaluateProfile id r report).declarationMatches = none ∧
    match profileTable id with
    | some t => (P.evaluateProfile id r report).hash = P.profileHash t
    | none => (P.evaluateProfile id r report).status = .unknown := by
  unfold Platform.evaluateProfile profileTable
  by_cases hcore : id = bellbookCoreV1
  · rw [if_pos hcore, if_pos hcore]
    exact ⟨hcore.symm, rfl, rfl⟩
  · rw [if_neg hcore, if_neg hcore]
    by_cases hdelivery : id = deliveryReceiptV1
    · rw [if_pos hdelivery, if_pos hdelivery]
      obtain ⟨hid, hhash, hmatches⟩ := @evaluateOver_fields P r report deliveryV1Table (P.deliveryClauses r report)
      exact ⟨hid.trans hdelivery.symm, hmatches, hhash⟩
    · rw [if_neg hdelivery, if_neg hdelivery]
      by_cases hsigned : id = bellbookCoreSignedV1
      · rw [if_pos hsigned, if_pos hsigned]
        obtain ⟨hid, hhash, hmatches⟩ := @evaluateOver_fields P r report signedV1Table (P.signedClauses r report)
        exact ⟨hid.trans hsigned.symm, hmatches, hhash⟩
      · rw [if_neg hsigned, if_neg hsigned]
        exact ⟨rfl, rfl, rfl⟩

/-- The evaluation does not look at the results that are already there. -/
theorem evaluateProfile_verdict (id : String) (results : List ProfileResult) :
    P.evaluateProfile id r (report.withProfiles results) = P.evaluateProfile id r report := rfl

/-! ## The list of results -/

/-- The accumulator: a required profile is evaluated unless it has a result. -/
theorem foldl_required {results : List ProfileResult} (required : List String) :
    required.foldl (fun out id =>
        if out.any fun p => p.id = id then out else out ++ [P.evaluateProfile id r report]) results =
      results ++ (required.filter fun id => id ∉ results.map ProfileResult.id).eraseDups.map fun id =>
        P.evaluateProfile id r report := by
  induction required generalizing results with
  | nil => exact (List.append_nil results).symm
  | cons id required ih =>
    have hany : (results.any fun p => decide (p.id = id)) = decide (id ∈ results.map ProfileResult.id) := by
      rw [Bool.eq_iff_iff]
      simp
    rw [List.foldl_cons, hany]
    by_cases hin : id ∈ results.map ProfileResult.id
    · rw [if_pos (decide_eq_true hin), ih, List.filter_cons_of_neg (by simpa using hin)]
    · rw [if_neg (by simpa using hin), ih, List.filter_cons_of_pos (by simpa using hin), List.eraseDups_cons,
        List.map_cons, List.append_assoc, List.singleton_append, List.filter_filter]
      -- what has a result now is what had one, and this profile
      have hsame : ∀ other ∈ required,
          decide (other ∉ (results ++ [P.evaluateProfile id r report]).map ProfileResult.id) =
            (!(other == id) && decide (other ∉ results.map ProfileResult.id)) := by
        intro other _
        rw [Bool.eq_iff_iff, List.map_append, List.map_singleton, (evaluateProfile_fields id).1]
        simp
        tauto
      rw [List.filter_congr hsame]

theorem evaluateProfiles_eq (required : List String) :
    P.evaluateProfiles r report required = P.profileResults r report required := by
  unfold Platform.evaluateProfiles Platform.profileResults
  rw [foldl_required, List.map_map]
  have hids : r.profiles.map (ProfileResult.id ∘ fun decl => P.evaluateDeclared decl r report) =
      r.profiles.map ProfileRef.id := by
    apply List.map_congr_left
    intro decl _
    exact (evaluateProfile_fields decl.id).1
  rw [hids]

theorem profileResults_verdict (required : List String) (results : List ProfileResult) :
    P.profileResults r (report.withProfiles results) required = P.profileResults r report required := by
  unfold Platform.profileResults Platform.evaluateDeclared
  simp only [evaluateProfile_verdict]

theorem profileResults_ids (required : List String) :
    (P.profileResults r report required).map ProfileResult.id = r.profiles.map ProfileRef.id ++
      (required.filter fun id => id ∉ r.profiles.map ProfileRef.id).eraseDups := by
  unfold Platform.profileResults
  rw [List.map_append, List.map_map, List.map_map]
  congr 1
  · apply List.map_congr_left
    intro decl _
    exact (evaluateProfile_fields decl.id).1
  · conv_rhs => rw [← List.map_id (List.eraseDups _)]
    apply List.map_congr_left
    intro id _
    exact (evaluateProfile_fields id).1

/-- The structural check passes ids that are distinct, not empty, and not seen before. -/
theorem checkDeclarationIds_eq_none {idx : Nat} {seen : List String} {decls : List ProfileRef} :
    checkDeclarationIds idx seen decls = none ↔
      (decls.map ProfileRef.id).Nodup ∧ ∀ decl ∈ decls, decl.id ≠ "" ∧ decl.id ∉ seen := by
  induction decls generalizing idx seen with
  | nil => exact iff_of_true rfl ⟨List.nodup_nil, fun _ hdecl => absurd hdecl List.not_mem_nil⟩
  | cons decl decls ih =>
    rw [checkDeclarationIds]
    by_cases hempty : decl.id = ""
    · rw [if_pos hempty]
      simp [hempty]
    by_cases hseen : decl.id ∈ seen
    · rw [if_neg hempty, if_pos hseen]
      simp [hseen]
    rw [if_neg hempty, if_neg hseen, ih, List.map_cons, List.nodup_cons]
    constructor
    · rintro ⟨hnodup, hnew⟩
      refine ⟨⟨fun hin => ?_, hnodup⟩, fun other hother => ?_⟩
      · obtain ⟨other, hother, heq⟩ := List.mem_map.mp hin
        exact (hnew other hother).2 (heq ▸ List.mem_cons_self)
      · rcases List.mem_cons.mp hother with rfl | hother
        · exact ⟨hempty, hseen⟩
        · exact ⟨(hnew other hother).1, fun hin => (hnew other hother).2 (List.mem_cons_of_mem _ hin)⟩
    · rintro ⟨⟨hfresh, hnodup⟩, hnew⟩
      refine ⟨hnodup, fun other hother => ⟨(hnew other (List.mem_cons_of_mem _ hother)).1, fun hin => ?_⟩⟩
      rcases List.mem_cons.mp hin with heq | hin
      · exact hfresh (heq ▸ List.mem_map_of_mem hother)
      · exact (hnew other (List.mem_cons_of_mem _ hother)).2 hin

theorem distinct_of_checkDeclarations (h : checkDeclarations r = none) :
    (r.profiles.map ProfileRef.id).Nodup := by
  unfold checkDeclarations at h
  split at h
  · next hnil =>
    rw [hnil]
    exact List.nodup_nil
  · split at h
    · cases h
    · exact (checkDeclarationIds_eq_none.mp h).1

/-! ## Declared profiles -/

/-- A declared profile is met if it is conformant and its declaration names the table. -/
theorem evaluateDeclared_met_iff (decl : ProfileRef) : (P.evaluateDeclared decl r report).met = true ↔
    (P.evaluateProfile decl.id r report).status = .conformant ∧ P.profileRef decl.id = some decl := by
  obtain ⟨-, hmatches, hknown⟩ := @evaluateProfile_fields P r report decl.id
  unfold ProfileResult.met Platform.evaluateDeclared Platform.declaredResult Platform.profileRef
  cases ht : profileTable decl.id with
  | none =>
    rw [ht] at hknown
    simp [hknown]
  | some t =>
    rw [ht] at hknown
    obtain ⟨id, version, hash⟩ := decl
    have hid := profileTable_id ht
    simp only at hid
    simp only [hknown, Bool.and_eq_true, decide_eq_true_eq, Option.map_some, Option.some.injEq,
      ProfileRef.mk.injEq, hid, true_and, ne_eq]
    refine and_congr_right fun _ => ?_
    by_cases hboth : version = t.version ∧ hash = P.profileHash t
    · simp [hboth.1, hboth.2]
    · simp only [not_and_or] at hboth
      rcases hboth with hne | hne
      · simp [hne, Ne.symm hne]
      · simp [hne, Ne.symm hne]

theorem status_finishProfile (t : ProfileTable) (clauses : List ClauseResult) :
    (P.finishProfile t clauses).status = .conformant ↔ clauses.all ClauseResult.passed = true := by
  simp only [Platform.finishProfile]
  split
  · next hall => simp [hall]
  · next hall => simp [hall]

/-- A profile that is evaluated over the state of the log conforms if its clauses hold there. -/
theorem clauses_of_evaluateOver {t : ProfileTable} {clauses : State → List ClauseResult}
    (ht : t.clauses ≠ []) (h : (P.evaluateOver t r report clauses).status = .conformant) :
    report.status ≠ .invalid ∧ ∃ s, P.buildStateUnchecked r.records = some s ∧
      (clauses s).all ClauseResult.passed = true := by
  have hfailed : ¬(P.finishProfile t t.allFailed).status = .conformant := by
    obtain ⟨c, cs, hc⟩ := List.exists_cons_of_ne_nil ht
    rw [status_finishProfile, ProfileTable.allFailed, hc]
    exact Bool.false_ne_true
  unfold Platform.evaluateOver at h
  split at h
  · exact absurd h hfailed
  next hvalid =>
  split at h
  · exact absurd h hfailed
  next s hbuild => exact ⟨hvalid, s, hbuild, (status_finishProfile t _).mp h⟩

/-- Both tiers above the baseline rest on it. -/
theorem baseline_of_conformant {id : String} (hid : id = deliveryReceiptV1 ∨ id = bellbookCoreSignedV1)
    (h : (P.evaluateProfile id r report).status = .conformant) :
    (P.evaluateBaseline r report).met = true := by
  unfold Platform.evaluateProfile at h
  rcases hid with rfl | rfl
  · rw [if_neg (by decide), if_pos rfl] at h
    obtain ⟨-, s, -, hall⟩ := clauses_of_evaluateOver (by decide) h
    exact (clauseFacts hall).1
  · rw [if_neg (by decide), if_neg (by decide), if_pos rfl] at h
    obtain ⟨-, s, -, hall⟩ := clauses_of_evaluateOver (by decide) h
    exact List.all_eq_true.mp hall _ List.mem_cons_self

/-! ## Any receipt -/

theorem writeJcs_nat_isSome (f : UInt64 → List Char) {n : Nat} (h : n ≤ maxSafeInteger) :
    (writeJcs f (toValue n)).isSome = true := by
  simp [toValue, writeJcs, writeNumber, h]

theorem writeJcs_profileRef_isSome (f : UInt64 → List Char) (decl : ProfileRef) :
    (writeJcs f (toValue decl)).isSome = true := by
  show (writeJcs f (.object [("id", toValue decl.id), ("version", toValue decl.version),
    ("hash", toValue decl.hash)])).isSome = true
  have hversion : decl.version.toNat ≤ maxSafeInteger := by
    have := decl.version.toNat_lt
    unfold maxSafeInteger
    omega
  rw [writeJcs_object_isSome]
  intro m hm
  simp only [List.mem_cons, List.not_mem_nil, or_false] at hm
  rcases hm with rfl | rfl | rfl
  · exact writeJcs_string_isSome f decl.id
  · exact writeJcs_nat_isSome f hversion
  · exact writeJcs_hash_isSome f decl.hash

/-- A receipt that can be written can be written with any declarations. -/
theorem toBytes_profiles_isSome (h : (P.toBytes r).isSome = true) (decls : List ProfileRef) :
    (P.toBytes { r with profiles := decls }).isSome = true := by
  have hsome (receipt : Receipt) : (P.toBytes receipt).isSome = true ↔
      ∀ m ∈ receiptMembers receipt, (writeJcs P.formatFinite m.2).isSome = true := by
    rw [← writeJcs_object_isSome]
    simp only [Platform.toBytes, Platform.canonicalJson, Option.isSome_map]
    rfl
  rw [hsome] at h ⊢
  intro m hm
  simp only [receiptMembers, List.mem_append] at hm h
  rcases hm with (hversion | hprofiles) | hrest
  · exact h m (.inl (.inl hversion))
  · cases decls with
    | nil => cases hprofiles
    | cons decl decls =>
      obtain rfl := List.mem_singleton.mp hprofiles
      show (writeJcs P.formatFinite (.array ((decl :: decls).map toValue))).isSome = true
      rw [writeJcs_array_isSome]
      intro v hv
      obtain ⟨other, -, rfl⟩ := List.mem_map.mp hv
      exact writeJcs_profileRef_isSome P.formatFinite other
  · exact h m (.inr hrest)

/-- A receipt that reached the replay: its declarations are well-formed and all of them are evaluated. -/
theorem validateReceipt_reached (hproblem : (P.validateReceipt r).problem = none) :
    checkDeclarations r = none ∧ (P.validateReceipt r).verdict = (P.validateReceipt r.undeclared).verdict ∧
      (P.validateReceipt r).profiles = P.profileResults r (P.validateReceipt r) [] := by
  have hundeclared : checkDeclarations r.undeclared = none := rfl
  unfold Platform.validateReceipt at hproblem ⊢
  rw [hundeclared, show r.undeclared.specVersion = r.specVersion from rfl,
    show r.undeclared.rules = r.rules from rfl, show r.undeclared.records = r.records from rfl]
  split at hproblem
  · cases hproblem
  split at hproblem
  · cases hproblem
  next hdecl =>
  rw [hdecl]
  split at hproblem
  · cases hproblem
  next hash _ =>
  have hreport (verdict : LogVerdict) : P.reportOf r.undeclared hash verdict = P.reportOf r hash verdict := rfl
  rw [hreport]
  refine ⟨rfl, ?_, ?_⟩
  · show (Report.withProfiles _ _).verdict = (Report.withProfiles _ _).verdict
    rw [Report.verdict_withProfiles, Report.verdict_withProfiles]
  · show P.evaluateProfiles r _ [] = P.profileResults r (Report.withProfiles _ _) []
    rw [profileResults_verdict, evaluateProfiles_eq]

/-- A receipt that was read fails in its structure, or is replayed. -/
theorem validateWithLimits_cases (hr : P.fromBytes bytes = some r) :
    (∃ problem version, P.validateWithLimits limits bytes = .structuralFailure problem version) ∨
      P.validateWithLimits limits bytes = P.validateReceipt r := by
  unfold Platform.validateWithLimits
  rw [hr]
  split
  · exact .inl ⟨_, _, rfl⟩
  · cases hlimits : limits.check r with
    | some problem => simp [hlimits]
    | none => simp [hlimits]

/-- A valid report is of a replay. -/
theorem problem_of_valid (hr : P.fromBytes bytes = some r)
    (hvalid : (P.validateWithLimits limits bytes).status ≠ .invalid) :
    (P.validateWithLimits limits bytes).problem = none := by
  rcases validateWithLimits_cases hr with ⟨problem, version, heq⟩ | heq
  · rw [heq] at hvalid
    exact absurd rfl hvalid
  rw [heq] at hvalid ⊢
  unfold Platform.validateReceipt at hvalid ⊢
  split at hvalid
  · exact absurd rfl hvalid
  split at hvalid
  · exact absurd rfl hvalid
  split at hvalid
  · exact absurd rfl hvalid
  · rfl

/-- The report of `validate_with_profiles` on a receipt that reached the replay. -/
theorem validateWithProfiles_eq (hr : P.fromBytes bytes = some r)
    (hproblem : (P.validateWithLimits limits bytes).problem = none) (required : List String) :
    (P.validateReceipt r).problem = none ∧ P.validateWithProfiles limits bytes required =
      (P.validateReceipt r).withProfiles (P.profileResults r (P.validateReceipt r) required) := by
  have hreport : P.validateWithLimits limits bytes = P.validateReceipt r := by
    refine (validateWithLimits_cases hr).resolve_left ?_
    rintro ⟨problem, version, heq⟩
    rw [heq] at hproblem
    cases hproblem
  rw [hreport] at hproblem
  refine ⟨hproblem, ?_⟩
  unfold Platform.validateWithProfiles
  rw [hreport, hr]
  dsimp only
  split
  · next hnone =>
    rcases hnone with rfl | hsome
    · rw [← (validateReceipt_reached hproblem).2.2]
      rfl
    · rw [hproblem] at hsome
      cases hsome
  · rw [evaluateProfiles_eq]
    rfl

/-- The results are those of the profiles that were asked for, and none is met by its declaration. -/
structure Platform.ProfilesReported (P : Platform) (r : Receipt) (required : List String) (report : Report) :
    Prop where
  distinct : (report.profiles.map ProfileResult.id).Nodup
  asked : ∀ id, id ∈ report.profiles.map ProfileResult.id ↔
    id ∈ r.profiles.map ProfileRef.id ∨ id ∈ required
  met : ∀ result ∈ report.profiles, result.met = true ↔
    (P.evaluateProfile result.id r report).status = .conformant ∧
      ∀ decl ∈ r.profiles, decl.id = result.id → P.profileRef decl.id = some decl
  baseline : ∀ decl ∈ r.profiles, decl.id = bellbookCoreV1 → P.profileRef decl.id ≠ some decl →
    ∀ result ∈ report.profiles, result.met = true →
      result.id ∉ knownProfiles

theorem nodup_eraseDups (l : List String) : l.eraseDups.Nodup := by
  induction h : l.length using Nat.strong_induction_on generalizing l with
  | _ n ih =>
    cases l with
    | nil => exact List.nodup_nil
    | cons a l =>
      rw [List.eraseDups_cons, List.nodup_cons]
      constructor
      · intro hin
        have := (List.mem_filter.mp (List.mem_eraseDups.mp hin)).2
        simp at this
      · apply ih _ ?_ _ rfl
        rw [← h, List.length_cons]
        exact Nat.lt_succ_of_le (List.length_filter_le _ _)

/-- A declared profile has the result of its declaration, any other the plain one. -/
theorem mem_profileResults {required : List String} {result : ProfileResult}
    (h : result ∈ P.profileResults r report required) :
    (∃ decl ∈ r.profiles, result = P.evaluateDeclared decl r report) ∨
      result.id ∉ r.profiles.map ProfileRef.id ∧ result = P.evaluateProfile result.id r report := by
  rcases List.mem_append.mp h with hdeclared | hrequired
  · obtain ⟨decl, hdecl, rfl⟩ := List.mem_map.mp hdeclared
    exact .inl ⟨decl, hdecl, rfl⟩
  · obtain ⟨id, hid, rfl⟩ := List.mem_map.mp hrequired
    right
    rw [(evaluateProfile_fields id).1]
    have hnew := (List.mem_filter.mp (List.mem_eraseDups.mp hid)).2
    exact ⟨of_decide_eq_true hnew, rfl⟩

theorem evaluateProfile_met_iff (id : String) : (P.evaluateProfile id r report).met = true ↔
    (P.evaluateProfile id r report).status = .conformant := by
  simp [ProfileResult.met, (evaluateProfile_fields id).2.1]

theorem met_profileResults {required : List String} (hdistinct : (r.profiles.map ProfileRef.id).Nodup)
    {result : ProfileResult} (h : result ∈ P.profileResults r report required) : result.met = true ↔
    (P.evaluateProfile result.id r report).status = .conformant ∧
      ∀ decl ∈ r.profiles, decl.id = result.id → P.profileRef decl.id = some decl := by
  rcases mem_profileResults h with ⟨decl, hdecl, rfl⟩ | ⟨hnew, heq⟩
  · have hid : (P.evaluateDeclared decl r report).id = decl.id := (evaluateProfile_fields decl.id).1
    rw [evaluateDeclared_met_iff, hid]
    refine and_congr_right fun _ => ?_
    constructor
    · intro hgenuine other hother heq
      rw [List.inj_on_of_nodup_map hdistinct hother hdecl heq, hgenuine]
    · intro hall
      exact hall decl hdecl rfl
  · rw [heq, evaluateProfile_met_iff, (evaluateProfile_fields result.id).1]
    refine (and_iff_left_of_imp fun _ decl hdecl hid => ?_).symm
    exact absurd (hid ▸ List.mem_map_of_mem hdecl) hnew

/-- The baseline is evaluated as declared, or else as the fallback. -/
theorem evaluateBaseline_cases : (∃ decl ∈ r.profiles, decl.id = bellbookCoreV1 ∧
      P.evaluateBaseline r report = P.evaluateDeclared decl r report) ∨
    (∀ decl ∈ r.profiles, decl.id ≠ bellbookCoreV1) ∧
      P.evaluateBaseline r report = P.evaluateProfile bellbookCoreV1 r report := by
  unfold Platform.evaluateBaseline
  split
  · next decl hfound =>
    have hid : decl.id = bellbookCoreV1 := by simpa using List.find?_some hfound
    refine .inl ⟨decl, List.mem_of_find?_eq_some hfound, hid, ?_⟩
    unfold Platform.evaluateDeclared Platform.evaluateProfile
    rw [if_pos hid]
  · next hnone =>
    refine .inr ⟨fun decl hdecl => ?_, rfl⟩
    simpa using List.find?_eq_none.mp hnone decl hdecl

/-- A baseline whose declaration names another table is not met. -/
theorem evaluateBaseline_met_iff (hdistinct : (r.profiles.map ProfileRef.id).Nodup) :
    (P.evaluateBaseline r report).met = true ↔
      (P.evaluateProfile bellbookCoreV1 r report).status = .conformant ∧
        ∀ decl ∈ r.profiles, decl.id = bellbookCoreV1 → P.profileRef decl.id = some decl := by
  rcases @evaluateBaseline_cases P r report with ⟨decl, hdecl, hid, heq⟩ | ⟨hnone, heq⟩
  · rw [heq, evaluateDeclared_met_iff, hid]
    refine and_congr_right fun _ => ?_
    constructor
    · intro hgenuine other hother hsame
      rw [List.inj_on_of_nodup_map hdistinct hother hdecl (hsame.trans hid.symm), hid, hgenuine]
    · intro hall
      exact hid ▸ hall decl hdecl hid
  · rw [heq, evaluateProfile_met_iff]
    exact (and_iff_left fun decl hdecl hid => absurd hid (hnone decl hdecl)).symm

/-- **A declaration is never trusted.** For a receipt that reached the replay, the verdict is that of the receipt
without its declarations. Each profile that is declared or required has one result; it is met if the profile is
conformant, and a declaration of it, if any, names the table that was evaluated. A declaration of the
baseline that names another table leaves the tiers above it unmet, too. -/
theorem declarations_untrusted (hr : P.fromBytes bytes = some r)
    (hproblem : (P.validateWithLimits limits bytes).problem = none) (required : List String) :
    (P.validateWithProfiles limits bytes required).verdict = (P.validateReceipt r.undeclared).verdict ∧
      P.ProfilesReported r required (P.validateWithProfiles limits bytes required) := by
  obtain ⟨hreached, hreport⟩ := validateWithProfiles_eq hr hproblem required
  obtain ⟨hdecl, hverdict, -⟩ := validateReceipt_reached hreached
  have hdistinct := distinct_of_checkDeclarations hdecl
  rw [hreport]
  refine ⟨hverdict, ?_, fun id => ?_, fun result hresult => ?_, fun decl hin hid hforged result hresult hmet => ?_⟩
  · rw [Report.profiles_withProfiles, profileResults_ids, List.nodup_append]
    refine ⟨hdistinct, nodup_eraseDups _, ?_⟩
    rintro id hid _ hnew rfl
    have hfresh := (List.mem_filter.mp (List.mem_eraseDups.mp hnew)).2
    exact of_decide_eq_true hfresh hid
  · rw [Report.profiles_withProfiles, profileResults_ids, List.mem_append, List.mem_eraseDups, List.mem_filter, decide_eq_true_eq]
    tauto
  · rw [evaluateProfile_verdict]
    exact met_profileResults hdistinct hresult
  · obtain ⟨hconformant, hgenuine⟩ := (met_profileResults hdistinct hresult).mp hmet
    intro hknown
    rcases List.mem_cons.mp hknown with hcore | htier
    · exact hforged (hgenuine decl hin (hid.trans hcore.symm))
    · have htier : result.id = deliveryReceiptV1 ∨ result.id = bellbookCoreSignedV1 := by simpa using htier
      exact hforged (((evaluateBaseline_met_iff hdistinct).mp (baseline_of_conformant htier hconformant)).2 decl hin hid)

theorem sampleRound_toBytes : (reference.toBytes (Receipt.new sampleRound sampleRules)).isSome = true := by
  decide +kernel

/-- The first pair of the sample log, with a declaration of the baseline that names another table. -/
def forgedReceipt : Receipt :=
  { Receipt.new sampleRound sampleRules with profiles := [⟨bellbookCoreV1, 9, 0⟩] }

/-- It is not met, and neither is the profile that rests on it. -/
theorem forgedReceipt_unmet : ∃ bytes, reference.toBytes forgedReceipt = some bytes ∧
    ∀ result ∈ (reference.validateWithProfiles (limitsOf bytes.length) bytes [deliveryReceiptV1]).profiles,
      result.met = false := by
  obtain ⟨bytes, hbytes⟩ := Option.isSome_iff_exists.mp
    (toBytes_profiles_isSome sampleRound_toBytes forgedReceipt.profiles)
  have hlimits : (limitsOf bytes.length).check forgedReceipt = none := by
    rw [check_limitsOf]
    decide +kernel
  obtain ⟨hash, hhash⟩ := rulesHash_of_toBytes hbytes
  have hproblem : (reference.validateWithLimits (limitsOf bytes.length) bytes).problem = none := by
    rw [validateWithLimits_toBytes reference_readsReceipts hbytes (Nat.le_refl _) hlimits]
    unfold Platform.validateReceipt
    rw [show checkDeclarations { Receipt.new sampleRound sampleRules with profiles := forgedReceipt.profiles } =
      none by decide, hhash]
    rfl
  have hr : reference.fromBytes bytes = some forgedReceipt :=
    fromBytes_toBytes reference_readsReceipts hbytes
  obtain ⟨-, hreported⟩ := declarations_untrusted hr hproblem [deliveryReceiptV1]
  refine ⟨bytes, hbytes, fun result hresult => ?_⟩
  by_contra hmet
  have hforged : reference.profileRef bellbookCoreV1 ≠ some ⟨bellbookCoreV1, 9, 0⟩ := by
    intro heq
    cases congrArg (Option.map ProfileRef.version) heq
  refine hreported.baseline ⟨bellbookCoreV1, 9, 0⟩ List.mem_cons_self rfl hforged result hresult
    (by simpa using hmet) ?_
  -- only these two were declared or required
  have hasked := (hreported.asked result.id).mp (List.mem_map_of_mem hresult)
  have hknown : ∀ id, id ∈ [bellbookCoreV1] ∨ id ∈ [deliveryReceiptV1] → id ∈ knownProfiles := by
    intro id hid
    rcases hid with hid | hid
    · rw [List.mem_singleton.mp hid]
      decide
    · rw [List.mem_singleton.mp hid]
      decide
  exact hknown _ hasked

/-! ## Exports -/

theorem profileRef_id {id : String} {decl : ProfileRef} (h : P.profileRef id = some decl) : decl.id = id := by
  obtain ⟨t, ht, rfl⟩ := Option.map_eq_some_iff.mp h
  exact profileTable_id ht

/-- Declaring adds the known declarations of new ids, and nothing else. -/
theorem withDeclaredProfiles_eq_ok {ids : List String} {declared : Receipt} :
    P.withDeclaredProfiles r ids = .ok declared ↔ ∃ decls : List ProfileRef,
      decls.map ProfileRef.id = ids ∧ (∀ decl ∈ decls, P.profileRef decl.id = some decl) ∧
      ids.Nodup ∧ (∀ id ∈ ids, id ∉ r.profiles.map ProfileRef.id) ∧
      declared = { r with profiles := r.profiles ++ decls } := by
  induction ids generalizing r with
  | nil =>
    rw [Platform.withDeclaredProfiles, Except.ok.injEq]
    constructor
    · rintro rfl
      exact ⟨[], rfl, by simp, List.nodup_nil, by simp, by rw [List.append_nil]⟩
    · rintro ⟨decls, hids, -, -, -, rfl⟩
      rw [List.map_eq_nil_iff.mp hids, List.append_nil]
  | cons id ids ih =>
    rw [Platform.withDeclaredProfiles]
    have hany : (r.profiles.any fun p => decide (p.id = id)) = decide (id ∈ r.profiles.map ProfileRef.id) := by
      rw [Bool.eq_iff_iff]
      simp
    rw [hany]
    by_cases hin : id ∈ r.profiles.map ProfileRef.id
    · rw [if_pos (decide_eq_true hin)]
      constructor
      · intro herr
        cases herr
      · rintro ⟨-, -, -, -, hnew, -⟩
        exact absurd hin (hnew id List.mem_cons_self)
    rw [if_neg (by simpa using hin)]
    cases hdecl : P.profileRef id with
    | none =>
      constructor
      · intro herr
        cases herr
      · rintro ⟨decls, hids, hknown, -⟩
        cases decls with
        | nil => cases hids
        | cons decl decls =>
          have hsome := hknown decl List.mem_cons_self
          rw [List.map_cons, List.cons.injEq] at hids
          rw [hids.1, hdecl] at hsome
          cases hsome
    | some decl =>
      have hid := profileRef_id hdecl
      dsimp only
      rw [ih]
      simp only [List.map_append, List.map_singleton, List.mem_append, List.mem_singleton, hid, not_or]
      constructor
      · rintro ⟨decls, rfl, hknown, hnodup, hnew, rfl⟩
        refine ⟨decl :: decls, by rw [List.map_cons, hid], ?_, ?_, ?_, by rw [List.append_assoc]; rfl⟩
        · intro other hother
          rcases List.mem_cons.mp hother with rfl | hother
          · rw [hid, hdecl]
          · exact hknown other hother
        · exact List.nodup_cons.mpr ⟨fun hmem => (hnew id hmem).2 rfl, hnodup⟩
        · intro other hother
          rcases List.mem_cons.mp hother with rfl | hother
          · exact hin
          · exact (hnew other hother).1
      · rintro ⟨decls, hids, hknown, hnodup, hnew, rfl⟩
        cases decls with
        | nil => cases hids
        | cons first decls =>
          rw [List.map_cons, List.cons.injEq] at hids
          obtain ⟨hfirst, rfl⟩ := hids
          obtain ⟨hfresh, hnodup⟩ := List.nodup_cons.mp hnodup
          have heq : first = decl := by
            have hsome := hknown first List.mem_cons_self
            rw [hfirst, hdecl] at hsome
            exact (Option.some.inj hsome).symm
          subst heq
          refine ⟨decls, rfl, fun other hother => hknown other (List.mem_cons_of_mem _ hother), hnodup, ?_,
            by rw [List.append_assoc]; rfl⟩
          intro other hother
          exact ⟨hnew other (List.mem_cons_of_mem _ hother), fun heq => hfresh (heq ▸ hother)⟩

theorem evaluateBaseline_undeclared (hgenuine : P.Genuine r) :
    (P.evaluateBaseline r report).met = (P.evaluateBaseline r.undeclared report).met := by
  have hplain : P.evaluateBaseline r.undeclared report = P.evaluateProfile bellbookCoreV1 r report := rfl
  rw [hplain, Bool.eq_iff_iff, evaluateProfile_met_iff]
  rcases @evaluateBaseline_cases P r report with ⟨decl, hdecl, hid, heq⟩ | ⟨-, heq⟩
  · rw [heq, evaluateDeclared_met_iff, hid]
    exact and_iff_left (hid ▸ hgenuine decl hdecl)
  · rw [heq, evaluateProfile_met_iff]

/-- Genuine declarations have no part in the evaluation. -/
theorem evaluateProfile_undeclared (hgenuine : P.Genuine r) (id : String) :
    P.evaluateProfile id r report = P.evaluateProfile id r.undeclared report := by
  have hbaseline := @evaluateBaseline_undeclared P r report hgenuine
  have hdelivery : P.deliveryClauses r report = P.deliveryClauses r.undeclared report := by
    funext s
    unfold Platform.deliveryClauses
    rw [hbaseline]
    rfl
  have hsigned : P.signedClauses r report = P.signedClauses r.undeclared report := by
    funext s
    unfold Platform.signedClauses
    rw [hbaseline]
    rfl
  unfold Platform.evaluateProfile Platform.evaluateDelivery Platform.evaluateSigned
  rw [hdelivery, hsigned]
  rfl

theorem profileTable_isSome {id : String} : (profileTable id).isSome = true ↔ id ∈ knownProfiles := by
  unfold profileTable knownProfiles
  split <;> simp_all
  split <;> simp_all

/-- A producer can declare the profiles that are known, each once. -/
theorem declares_iff {ids : List String} (hnew : r.profiles = []) :
    (∃ declared, P.withDeclaredProfiles r ids = .ok declared) ↔
      ids.Nodup ∧ ∀ id ∈ ids, id ∈ knownProfiles := by
  simp only [withDeclaredProfiles_eq_ok, hnew]
  constructor
  · rintro ⟨_, decls, rfl, hknown, hnodup, -⟩
    refine ⟨hnodup, fun id hid => ?_⟩
    obtain ⟨decl, hdecl, rfl⟩ := List.mem_map.mp hid
    obtain ⟨t, ht, -⟩ := Option.map_eq_some_iff.mp (hknown decl hdecl)
    exact profileTable_isSome.mp (Option.isSome_of_mem ht)
  · rintro ⟨hnodup, hknown⟩
    refine ⟨_, ids.filterMap P.profileRef, ?_, fun decl hdecl => ?_, hnodup, by simp, rfl⟩
    · rw [List.map_filterMap]
      conv_rhs => rw [← List.filterMap_some (l := ids)]
      apply List.filterMap_congr
      intro id hid
      obtain ⟨t, ht⟩ := Option.isSome_iff_exists.mp (profileTable_isSome.mpr (hknown id hid))
      rw [Platform.profileRef, ht, Option.map_some, Option.map_some, profileTable_id ht]
    · obtain ⟨id, -, hid⟩ := List.mem_filterMap.mp hdecl
      rw [profileRef_id hid, hid]

/-- The result of a genuine declaration. -/
theorem evaluateDeclared_genuine {decl : ProfileRef} (hdecl : P.profileRef decl.id = some decl) :
    P.evaluateDeclared decl r report = (P.evaluateProfile decl.id r report).asDeclared := by
  obtain ⟨-, -, hknown⟩ := @evaluateProfile_fields P r report decl.id
  obtain ⟨t, ht, heq⟩ := Option.map_eq_some_iff.mp hdecl
  rw [ht] at hknown
  have hmatches : (decide (decl.version = t.version) &&
      decide (decl.hash = (P.evaluateProfile decl.id r report).hash)) = true := by
    rw [hknown]
    simp [← heq]
  unfold Platform.evaluateDeclared Platform.declaredResult
  rw [ht]
  dsimp only
  rw [hmatches]
  rfl

/-- The declarations of a producer pass the structural check. -/
theorem checkDeclarations_genuine (hversion : r.specVersion = specVersion) (hgenuine : P.Genuine r)
    (hnodup : (r.profiles.map ProfileRef.id).Nodup) : checkDeclarations r = none := by
  have hids : checkDeclarationIds 0 [] r.profiles = none := by
    refine checkDeclarationIds_eq_none.mpr ⟨hnodup, fun decl hdecl => ⟨fun hempty => ?_, List.not_mem_nil⟩⟩
    have hnone := hgenuine decl hdecl
    rw [hempty] at hnone
    cases hnone
  unfold checkDeclarations
  rw [hids, hversion]
  split
  · rfl
  · rfl

/-- A declared export validates with the results of the plain one. -/
theorem validateWithProfiles_declared (hread : P.ReadsReceipts) {records : List Record} {rules : VerifierRules}
    {ids : List String} {declared : Receipt}
    (hdeclare : P.withDeclaredProfiles (Receipt.new records rules) ids = .ok declared)
    (hbytes : P.toBytes declared = some bytes) (hsize : bytes.length ≤ limits.maxBytes)
    (hlimits : limits.check (Receipt.new records rules) = none) {plain : Report}
    (hplain : P.validateReceipt (Receipt.new records rules) = plain) (required : List String) :
    P.validateWithProfiles limits bytes required = plain.withProfiles
      ((ids.map fun id => (P.evaluateProfile id (Receipt.new records rules) plain).asDeclared) ++
        (required.filter fun id => id ∉ ids).eraseDups.map fun id =>
          P.evaluateProfile id (Receipt.new records rules) plain) := by
  obtain ⟨decls, rfl, hknown, hnodup, -, heq⟩ := withDeclaredProfiles_eq_ok.mp hdeclare
  have hprofiles : declared.profiles = decls := by rw [heq]; rfl
  have hundeclared : declared.undeclared = Receipt.new records rules := by rw [heq]; rfl
  have hversion : declared.specVersion = specVersion := by rw [heq]; rfl
  have hgenuine : P.Genuine declared := by
    intro decl hdecl
    exact hknown decl (hprofiles ▸ hdecl)
  have hcheck := checkDeclarations_genuine hversion hgenuine (hprofiles ▸ hnodup)
  obtain ⟨hash, hhash⟩ := rulesHash_of_toBytes hbytes
  have hreport : P.validateWithLimits limits bytes = P.validateReceipt declared :=
    validateWithLimits_toBytes hread hbytes hsize (by rw [heq]; exact hlimits)
  have hproblem : (P.validateReceipt declared).problem = none := by
    unfold Platform.validateReceipt
    rw [hcheck, hhash, hversion]
    rfl
  have hverdict : (P.validateReceipt declared).verdict = plain.verdict := by
    rw [(validateReceipt_reached hproblem).2.1, hundeclared, hplain]
  have hevaluate (id : String) : P.evaluateProfile id declared (P.validateReceipt declared) =
      P.evaluateProfile id (Receipt.new records rules) plain := by
    have heval := congrArg (P.evaluateProfile id (Receipt.new records rules)) hverdict
    rw [Report.verdict, Report.verdict, evaluateProfile_verdict, evaluateProfile_verdict] at heval
    rw [evaluateProfile_undeclared hgenuine, hundeclared, heval]
  rw [(validateWithProfiles_eq (fromBytes_toBytes hread hbytes) (hreport ▸ hproblem) required).2]
  have hresults : P.profileResults declared (P.validateReceipt declared) required =
      ((decls.map ProfileRef.id).map fun id =>
          (P.evaluateProfile id (Receipt.new records rules) plain).asDeclared) ++
        (required.filter fun id => id ∉ decls.map ProfileRef.id).eraseDups.map fun id =>
          P.evaluateProfile id (Receipt.new records rules) plain := by
    unfold Platform.profileResults
    rw [hprofiles, List.map_map]
    congr 1
    · apply List.map_congr_left
      intro decl hdecl
      rw [evaluateDeclared_genuine (hknown decl hdecl), hevaluate]
      rfl
    · apply List.map_congr_left
      intro id _
      exact hevaluate id
  rw [hresults]
  show (P.validateReceipt declared).verdict.withProfiles _ = plain.verdict.withProfiles _
  rw [hverdict]

/-- **A declared export is reported as declared.** A producer can declare exactly the profiles it knows, each once. The
export then validates as without the declarations, whatever is required; each declared profile is
reported in order, as evaluated on the plain export, marked as declared and matching, and each other required one
once. -/
theorem declared_export_validates (hread : P.ReadsReceipts) (records : List Record) (rules : VerifierRules)
    (ids : List String) : ((∃ declared, P.withDeclaredProfiles (Receipt.new records rules) ids = .ok declared) ↔
      ids.Nodup ∧ ∀ id ∈ ids, id ∈ knownProfiles) ∧
    ∀ (declared : Receipt) (bytes : Bytes) (limits : ValidationLimits) (required : List String) (plain : Report),
      P.withDeclaredProfiles (Receipt.new records rules) ids = .ok declared →
      P.toBytes declared = some bytes → bytes.length ≤ limits.maxBytes →
      limits.check (Receipt.new records rules) = none →
      P.validateReceipt (Receipt.new records rules) = plain →
      P.validateWithProfiles limits bytes required = plain.withProfiles
        ((ids.map fun id => (P.evaluateProfile id (Receipt.new records rules) plain).asDeclared) ++
          (required.filter fun id => id ∉ ids).eraseDups.map fun id =>
            P.evaluateProfile id (Receipt.new records rules) plain) := by
  refine ⟨declares_iff rfl, fun declared bytes limits required plain hdeclare hbytes hsize hlimits hplain => ?_⟩
  exact validateWithProfiles_declared hread hdeclare hbytes hsize hlimits hplain required

/-- The first pair of the sample log, declared to meet the baseline. -/
theorem sampleRound_declared : ∃ declared bytes,
    reference.withDeclaredProfiles (Receipt.new sampleRound sampleRules) [bellbookCoreV1] = .ok declared ∧
      reference.toBytes declared = some bytes ∧
      ∃ (plain : Report) (result : ProfileResult),
        reference.validateWithProfiles (limitsOf bytes.length) bytes [] =
          plain.withProfiles [result.asDeclared] := by
  have hdeclared := declared_export_validates reference_readsReceipts sampleRound sampleRules [bellbookCoreV1]
  obtain ⟨declared, hdeclare⟩ := hdeclared.1.mpr ⟨by decide, by decide⟩
  obtain ⟨bytes, hbytes⟩ : ∃ bytes, reference.toBytes declared = some bytes := by
    obtain ⟨decls, -, -, -, -, rfl⟩ := withDeclaredProfiles_eq_ok.mp hdeclare
    exact Option.isSome_iff_exists.mp (toBytes_profiles_isSome sampleRound_toBytes _)
  have hlimits : (limitsOf bytes.length).check (Receipt.new sampleRound sampleRules) = none := by
    rw [check_limitsOf]
    decide +kernel
  exact ⟨declared, bytes, hdeclare, hbytes, _, _,
    hdeclared.2 declared bytes _ [] _ hdeclare hbytes (Nat.le_refl _) hlimits rfl⟩

end Bellbook
