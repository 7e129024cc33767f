import Bellbook.State.Incremental

/-!
# Full state build (`state/build.rs`)

`buildStateUnchecked` derives the state of a log from its stored verdicts, on faith: collect the
verdicts under the subjects they name, then fold the other records in log order.
-/

namespace Bellbook

open Std

/-- The time of the last record; 0 for an empty log. -/
def lastTime (records : List Record) : Time := (records.getLast?.map Record.time).getD 0

namespace Platform

variable (P : Platform)

/-- One record of the first pass: a verdict is filed under the target of its first Cause ref. -/
def fileVerdict (verdicts : IdMap VerdictData) (r : Record) : Option (IdMap VerdictData) :=
  if r.kind = .verdict then
    match r.firstCause with
    | some subject => (P.decode VerdictData r.data).map fun d => verdicts.insert subject d
    | none => some verdicts
  else some verdicts

/-- Step 1: the verdict map. A later verdict of one subject replaces an earlier one. -/
def verdictMap (records : List Record) : Option (IdMap VerdictData) :=
  records.foldlM P.fileVerdict ∅

/-- One record of the second pass. -/
def buildStep (verdicts : IdMap VerdictData) (s : State) (r : Record) : Option State :=
  if r.kind = .verdict then some s
  else match verdicts[r.id]? with
    | some verdict => P.applyRecord s r verdict
    | none => some s

/-- `build_state_unchecked`. -/
def buildStateUnchecked (records : List Record) : Option State := do
  let verdicts ← P.verdictMap records
  let s ← records.foldlM (P.buildStep verdicts) State.empty
  return { s with appliedUpTo := lastTime records }

end Platform

end Bellbook
