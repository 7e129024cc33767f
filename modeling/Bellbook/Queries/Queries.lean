import Bellbook.Base.RoundTrip
import Bellbook.Verify.Lineage

/-!
# Read-side queries (`queries.rs`)

The seven named queries over a verified log. `queries` is `Queries::new`: it replays the log, refuses
a rejecting one, and keeps the verdict, the state and an index by id. Every query walks refs and
payload ids of records it found through that index, and reports each record as a `Node`: its id and
the annotations that replay computed for it.

The source's index holds positions in the log; here it holds the records at them.
-/

namespace Bellbook

open Std

/-! ## Answers -/

/-- Why a query could not be answered. -/
inductive QueryError where
  | logInvalid (reason : Option ReasonCode)
  | notFound (id : RecordId)
  | notAccepted (id : RecordId)
  | kindMismatch (id : RecordId) (expected : String)
  deriving DecidableEq

/-- A record as every query reports it. -/
structure Node where
  id : String
  kind : String
  standing : String
  tainted : Bool
  retracted : Bool
  artifacts : List ArtifactRef
  requirements : List String
  deriving DecidableEq

/-- One step of a line of descent: the ancestor and the edge that reached it. -/
structure DescentStep where
  node : Node
  via : String
  deriving DecidableEq

structure DescentReport where
  target : Node
  line : List DescentStep
  deriving DecidableEq

structure DescendantsReport where
  target : Node
  descendants : List Node
  deriving DecidableEq

structure SiblingsReport where
  target : Node
  siblings : List Node
  deriving DecidableEq

structure FrontierEntry where
  node : Node
  reason : String
  deriving DecidableEq

structure StandingReport where
  node : Node
  restorations : List String
  deriving DecidableEq

structure EvidenceEntry where
  node : Node
  criterion : String
  outcome : String
  deriving DecidableEq

structure SelectionEvidence where
  selection : Node
  evidence : List EvidenceEntry
  deriving DecidableEq

structure EvidenceReport where
  target : Node
  restsOn : List SelectionEvidence
  deriving DecidableEq

structure SelectedEntry where
  selection : Node
  chosen : List Node
  evidence : List EvidenceEntry
  deriving DecidableEq

structure SelectedReport where
  objective : String
  selections : List SelectedEntry
  deriving DecidableEq

/-! ## The verified context -/

structure Queries where
  records : List Record
  verdict : LogVerdict
  state : State
  byId : IdMap Record

/-- `records.iter().enumerate().map(|(i, r)| (r.id, i)).collect()`. -/
def indexById (records : List Record) : IdMap Record :=
  records.foldl (fun m r => m.insert r.id r) ∅

/-- `Queries::new`. -/
def Platform.queries (P : Platform) (rules : VerifierRules) (records : List Record) :
    Except QueryError Queries :=
  let verdict := P.verifyLog rules records none
  if verdict.result ≠ .accept then .error (.logInvalid verdict.reason)
  else match P.buildStateUnchecked records with
    | none => .error (.logInvalid none)
    | some state => .ok ⟨records, verdict, state, indexById records⟩

/-- One byte of `parse_hex`: `u8::from_str_radix` of two characters, zero if they are no number. -/
def hexByte (a b : Char) : UInt8 :=
  match (if a = '+' then some 0 else JsonText.hexDigit a), JsonText.hexDigit b with
  | some hi, some lo => UInt8.ofNat (hi * 16 + lo)
  | _, _ => 0

def hexBytes : List Char → Bytes
  | a :: b :: rest => hexByte a b :: hexBytes rest
  | _ => []

/-- `parse_hex`, on the 64 characters of an id this module itself produced. -/
def parseHex (hex : String) : RecordId :=
  BitVec.ofNat 256 ((hexBytes hex.toList).foldl (fun acc b => acc * 256 + b.toNat) 0)

namespace Queries

variable (P : Platform) (Q : Queries)

/-! ## Shared helpers -/

/-- `get`. -/
def get (id : RecordId) : Except QueryError Record :=
  match Q.byId[id]? with
  | none => .error (.notFound id)
  | some r => .ok r

/-- `get_accepted`. -/
def getAccepted (id : RecordId) : Except QueryError Record := do
  let r ← Q.get id
  if id ∉ Q.state.acceptedRecords then throw (.notAccepted id)
  return r

/-- The standing of a record in the report of `verify_log`. -/
def standingLabel (verdict : LogVerdict) (r : Record) : String :=
  match r.kind with
  | .candidate => if r.id ∈ verdict.standing.compromised then "compromised" else "sound"
  | .selection => if r.id ∈ verdict.standing.unsound then "unsound" else "sound"
  | _ => "n/a"

/-- The artifact and requirement bindings a record carries. -/
def bindings (r : Record) : List ArtifactRef × List String :=
  match r.kind with
  | .candidate => (((P.decode CandidateData r.data).bind CandidateData.artifacts).getD [], [])
  | .result => (((P.decode ResultData r.data).bind ResultData.artifacts).getD [], [])
  | .evaluation =>
    match P.decode EvaluationDataV2 r.data with
    | some e => (e.evidence, e.requirements.map hexEncode)
    | none => ([], [])
  | _ => ([], [])

/-- `node`. -/
def node (r : Record) : Node where
  id := hexEncode r.id
  kind := UnitEnum.name r.kind
  standing := standingLabel Q.verdict r
  tainted := r.id ∈ Q.verdict.taintedRecords
  retracted := r.id ∈ Q.verdict.retractedRecords
  artifacts := (bindings P r).1
  requirements := (bindings P r).2

/-- `candidate_data`. -/
def candidateData (r : Record) : Except QueryError CandidateData :=
  if r.kind ≠ .candidate then .error (.kindMismatch r.id "Candidate")
  else match P.decode CandidateData r.data with
    | none => .error (.notFound r.id)
    | some data => .ok data

/-- The targets of the Cause refs, sorted. -/
def sortedCauses (r : Record) : List RecordId :=
  (refTargets .cause r.refs).mergeSort fun a b => decide (a ≤ b)

/-- `back_edges`: the ancestors of a candidate and the edges to them. Evaluation-kind causes of a
derivation are motivation, not structure. -/
def backEdges (r : Record) (data : CandidateData) : List (RecordId × String) :=
  match data.basis with
  | .root => []
  | .continuation =>
    (sortedCauses r).map (fun a => (a, "continuation-anchor")) ++
      data.parent.toList.map fun p => (p, "parent")
  | .derivation =>
    ((sortedCauses r).filter fun c => (Q.byId[c]?).any fun t => t.kind = .candidate).map
      fun c => (c, "derivation")

/-- `selection_evidence`: the evaluations a Selection Used, in ref order. -/
def selectionEvidence (r : Record) : List EvidenceEntry :=
  (refTargets .use r.refs).filterMap fun target =>
    match Q.byId[target]? with
    | none => none
    | some t =>
      if t.kind ≠ .evaluation then none
      else (P.evaluationSummary t.schema t.data).map fun summary =>
        ⟨Q.node P t, summary.2.1, summary.2.2⟩

/-- The record is accepted and of the kind. -/
def isAccepted (kind : Kind) (r : Record) : Bool := r.kind = kind && r.id ∈ Q.state.acceptedRecords

/-! ## q1 to q3: lines and generations -/

/-- The known ids that were not visited. -/
def unvisited (seen : IdSet) : List RecordId := Q.byId.keys.filter fun id => id ∉ seen

theorem unvisited_insert_lt {seen : IdSet} {id : RecordId} {r : Record} (hseen : id ∉ seen)
    (hget : Q.get id = .ok r) :
    (Q.unvisited (seen.insert id)).length < (Q.unvisited seen).length := by
  have hmem : id ∈ Q.byId := by
    rw [ExtTreeMap.mem_iff_isSome_getElem?]
    unfold get at hget
    split at hget
    · cases hget
    · next h => rw [h]; rfl
  have hsub : Q.unvisited (seen.insert id) = (Q.unvisited seen).filter fun x => x ≠ id := by
    unfold unvisited
    rw [List.filter_filter]
    apply List.filter_congr
    intro x _
    simp only [ExtTreeSet.mem_insert, LawfulEqOrd.compare_eq_iff_eq, eq_comm (a := id)]
    by_cases hx : x = id <;> simp [hx]
  rw [hsub, List.length_filter_lt_length_iff_exists]
  refine ⟨id, ?_, by simp⟩
  rw [unvisited, List.mem_filter]
  exact ⟨ExtTreeMap.mem_keys.mpr hmem, by simpa using hseen⟩

/-- The breadth-first loop of `descent`. -/
def descentLoop (seen : IdSet) (queue : List (RecordId × String)) (line : List DescentStep) :
    Except QueryError (List DescentStep) :=
  match queue with
  | [] => .ok line
  | (id, via) :: queue =>
    if _hseen : id ∈ seen then descentLoop seen queue line
    else match hget : Q.get id with
      | .error e => .error e
      | .ok anc =>
        if anc.kind = .candidate then
          match candidateData P anc with
          | .error e => .error e
          | .ok ad =>
            descentLoop (seen.insert id) (queue ++ Q.backEdges anc ad) (line ++ [⟨Q.node P anc, via⟩])
        else descentLoop (seen.insert id) queue (line ++ [⟨Q.node P anc, via⟩])
termination_by ((Q.unvisited seen).length, queue.length)
decreasing_by
  · exact Prod.Lex.right _ (Nat.lt_succ_self _)
  · exact Prod.Lex.left _ _ (Q.unvisited_insert_lt _hseen hget)
  · exact Prod.Lex.left _ _ (Q.unvisited_insert_lt _hseen hget)

/-- q1, `descent`. -/
def descent (candidate : RecordId) : Except QueryError DescentReport := do
  let r ← Q.getAccepted candidate
  let data ← candidateData P r
  let line ← Q.descentLoop P ((∅ : IdSet).insert candidate) (Q.backEdges r data) []
  return ⟨Q.node P r, line⟩

/-- q2, `descendants`. -/
def descendants (id : RecordId) : Except QueryError DescendantsReport := do
  let target ← Q.getAccepted id
  let found ← Q.records.foldlM (fun acc r => do
    if r.id = id ∨ Q.isAccepted .candidate r = false then return acc
    let report ← Q.descent P r.id
    if report.line.any fun step => step.node.id = hexEncode id then return acc ++ [Q.node P r]
    return acc) []
  return ⟨Q.node P target, found⟩

/-- `cause_set`. -/
def causeSet (r : Record) : IdSet := idSetOf (refTargets .cause r.refs)

def sameGeneration (r other : Record) (data od : CandidateData) : Bool :=
  match data.basis, od.basis with
  | .continuation, .continuation => causeSet other = causeSet r
  | .derivation, .derivation => causeSet other = causeSet r
  | _, _ => false

/-- q3, `siblings`. -/
def siblings (candidate : RecordId) : Except QueryError SiblingsReport := do
  let r ← Q.getAccepted candidate
  let data ← candidateData P r
  let found := Q.records.filter fun other =>
    other.id ≠ candidate && Q.isAccepted .candidate other &&
      match candidateData P other with
      | .error _ => false
      | .ok od => sameGeneration r other data od
  return ⟨Q.node P r, found.map (Q.node P)⟩

/-! ## q4 and q5: frontier and standing -/

/-- The payloads of the accepted Selections. -/
def selections : List SelectionData :=
  (Q.records.filter (Q.isAccepted .selection)).filterMap fun r => P.decode SelectionData r.data

def considered : IdSet := idSetOf ((Q.selections P).flatMap SelectionData.considered)

def chosen : IdSet := idSetOf ((Q.selections P).flatMap fun d => d.outcome.winners)

/-- The parents that some accepted continuation extends. -/
def continued : IdSet :=
  idSetOf ((Q.records.filter (Q.isAccepted .candidate)).filterMap fun r =>
    match P.decode CandidateData r.data with
    | some d => if d.basis = .continuation then d.parent else none
    | none => none)

def frontierReason (r : Record) : Option String :=
  if r.id ∉ Q.considered P then some "unconsidered"
  else if r.id ∈ Q.chosen P ∧ r.id ∉ Q.continued P then some "selected-no-continuation"
  else none

/-- q4, `frontier`. -/
def frontier : List FrontierEntry :=
  (Q.records.filter (Q.isAccepted .candidate)).filterMap fun r =>
    (Q.frontierReason P r).map fun reason => ⟨Q.node P r, reason⟩

/-- q5, `standing`. -/
def standing (id : RecordId) : Except QueryError StandingReport := do
  let r ← Q.getAccepted id
  let restorations := (Q.verdict.standing.restorations[id]?.getD ∅).toList.map hexEncode
  return ⟨Q.node P r, restorations⟩

/-! ## q6 and q7: evidence and selections -/

/-- The evidence of the anchors along a line. -/
def anchorEvidence : List DescentStep → Except QueryError (List SelectionEvidence)
  | [] => .ok []
  | step :: line =>
    if step.node.kind = "Selection" then do
      let sel ← Q.get (parseHex step.node.id)
      let rest ← anchorEvidence line
      return ⟨step.node, Q.selectionEvidence P sel⟩ :: rest
    else anchorEvidence line

/-- A Selection rests on its own evidence, a Candidate on that of every anchor along its descent. -/
def restsOn (id : RecordId) (r : Record) : Except QueryError (List SelectionEvidence) :=
  match r.kind with
  | .selection => .ok [⟨Q.node P r, Q.selectionEvidence P r⟩]
  | .candidate => do
    let report ← Q.descent P id
    Q.anchorEvidence P report.line
  | _ => .error (.kindMismatch id "Candidate or Selection")

/-- q6, `evidence`. -/
def evidence (id : RecordId) : Except QueryError EvidenceReport := do
  let r ← Q.getAccepted id
  let restsOn ← Q.restsOn P id r
  return ⟨Q.node P r, restsOn⟩

/-- The records of a list of ids that the index knows. -/
def known (ids : List RecordId) : List Record := ids.filterMap fun id => Q.byId[id]?

/-- q7, `selected`. -/
def selected (objective : String) : SelectedReport where
  objective
  selections := (Q.records.filter (Q.isAccepted .selection)).filterMap fun r =>
    match P.decode SelectionData r.data with
    | none => none
    | some sd =>
      if sd.objective ≠ objective then none
      else match sd.outcome with
        | .none => none
        | .selected candidates =>
          some ⟨Q.node P r, (Q.known candidates).map (Q.node P), Q.selectionEvidence P r⟩

end Queries

end Bellbook
