import Bellbook.Verify.RecordChecks

/-!
# Standing (`verify/standing.rs`)

The lineage report at the end of a replay: which candidates are compromised, which selections are
unsound, and which sound selections restore them. Hash maps are iterated in the platform's order.
-/

namespace Bellbook

open Std

structure StandingSection where
  compromised : IdSet := ∅
  unsound : IdSet := ∅
  restorations : IdMap IdSet := ∅
  deriving DecidableEq

/-- Per-candidate lineage facts. -/
structure CandInfo where
  basis : CandidateBasis
  parent : Option RecordId
  causes : List RecordId
  deriving DecidableEq

/-- Per-selection lineage facts. -/
structure SelInfo where
  selected : IdSet
  replaceTarget : Option RecordId
  deriving DecidableEq

/-- The two tables of `derive_standing`. -/
structure Lineage where
  candidates : IdMap CandInfo := ∅
  selections : IdMap SelInfo := ∅

/-- `is_unsound`. -/
def State.isUnsound (s : State) (id : RecordId) : Bool :=
  id ∈ s.retractedRecords || id ∈ s.taintedRecords

/-- The chain of Replace targets from a hop, at most `guard` of them. -/
def replaceChain (selections : IdMap SelInfo) : Nat → Option RecordId → List RecordId
  | 0, _ => []
  | _ + 1, none => []
  | guard + 1, some ancestor =>
    ancestor :: replaceChain selections guard (selections[ancestor]?.bind SelInfo.replaceTarget)

/-- A sound selection restores every proper ancestor of its Replace chain. -/
def addReplacer (s : State) (selections : IdMap SelInfo) (replacers : IdMap IdSet)
    (entry : RecordId × SelInfo) : IdMap IdSet :=
  if s.isUnsound entry.1 then replacers
  else (replaceChain selections (selections.size + 1) entry.2.replaceTarget).foldl
    (fun m ancestor => m.insert ancestor ((m[ancestor]?.getD ∅).insert entry.1)) replacers

/-- `anchor_sound`. -/
def anchorSound (s : State) (selections : IdMap SelInfo) (replacers : IdMap IdSet)
    (anchor parent : RecordId) : Bool :=
  !s.isUnsound anchor ||
  (replacers[anchor]?.getD ∅).toList.any fun s2 =>
    (selections[s2]?).any fun info => parent ∈ info.selected

/-- The candidates a candidate's standing depends on. -/
def CandInfo.deps (info : CandInfo) (candidates : IdMap CandInfo) : List RecordId :=
  match info.basis with
  | .root => []
  | .continuation => info.parent.toList
  | .derivation => info.causes.filter fun t => t ∈ candidates

/-- The standing of a candidate whose dependencies are settled. -/
def CandInfo.standing (info : CandInfo) (candidates : IdMap CandInfo)
    (anchorSound : RecordId → RecordId → Bool) (sound : IdMap Bool) : Bool :=
  match info.basis with
  | .root => true
  | .continuation =>
    match info.causes, info.parent with
    | anchor :: _, some parent => anchorSound anchor parent && sound[parent]?.getD false
    | _, _ => false
  | .derivation => (info.deps candidates).all fun d => sound[d]?.getD false

/-- The post-order traversal from a stack of candidates. -/
def settle (s : State) (candidates : IdMap CandInfo) (anchorSound : RecordId → RecordId → Bool) :
    Nat → IdMap Bool → List (RecordId × Bool) → IdMap Bool
  | 0, sound, _ => sound
  | _ + 1, sound, [] => sound
  | fuel + 1, sound, (id, depsDone) :: stack =>
    if id ∈ sound then settle s candidates anchorSound fuel sound stack
    else match candidates[id]? with
      | none => settle s candidates anchorSound fuel sound stack
      | some info =>
        -- a retracted candidate is compromised, unconditionally
        if id ∈ s.retractedRecords then
          settle s candidates anchorSound fuel (sound.insert id false) stack
        else
          let unresolved := (info.deps candidates).filter fun d => d ∉ sound && d ∈ candidates
          if depsDone = false ∧ unresolved ≠ [] then
            settle s candidates anchorSound fuel sound
              ((unresolved.map fun d => (d, false)).reverse ++ (id, true) :: stack)
          else
            settle s candidates anchorSound fuel
              (sound.insert id (info.standing candidates anchorSound sound)) stack

/-- Iterations enough for one traversal: an entry and its marker for each candidate, and one entry
for each of its dependencies. -/
def settleFuel (candidates : IdMap CandInfo) : Nat :=
  1 + (candidates.toList.map fun p => 3 + p.2.causes.length).sum

namespace Platform

variable (P : Platform)

/-- One record of the first pass. -/
def addLineage (s : State) (l : Lineage) (r : Record) : Lineage :=
  if r.id ∉ s.acceptedRecords then l
  else match r.kind with
    | .candidate =>
      match P.decode CandidateData r.data with
      | none => l
      | some data =>
        let info := ⟨data.basis, data.parent, refTargets .cause r.refs⟩
        { l with candidates := l.candidates.insert r.id info }
    | .selection =>
      match P.decode SelectionData r.data with
      | none => l
      | some data =>
        let info := ⟨idSetOf data.outcome.winners, findReplaceRef r.refs⟩
        { l with selections := l.selections.insert r.id info }
    | _ => l

/-- `derive_standing`. -/
def deriveStanding (records : List Record) (s : State) : StandingSection :=
  let l := records.foldl (P.addLineage s) {}
  let unsound := idSetOf (l.selections.keys.filter s.isUnsound)
  let replacers := (P.hashOrder _ l.selections.toList).foldl (addReplacer s l.selections) ∅
  let restorations := unsound.toList.foldl (fun m sel =>
    match replacers[sel]? with
    | some set => if set.isEmpty then m else m.insert sel set
    | none => m) ∅
  let sound := (P.hashOrder _ l.candidates.keys).foldl (fun sound start =>
    if start ∈ sound then sound
    else settle s l.candidates (anchorSound s l.selections replacers) (settleFuel l.candidates)
      sound [(start, false)]) ∅
  { compromised := idSetOf (l.candidates.keys.filter fun id => !(sound[id]?.getD false))
    unsound, restorations }

end Platform

end Bellbook
