import Bellbook.Verify.Activity

/-!
# Plans, retractions and approvals (`verify/verifier/plans.rs`)

The kind-specific rules of Plan, Retraction and Approval records, with the cycle test of a plan's
`depends_on` graph.
-/

namespace Bellbook

open Std

/-! ## Cycles -/

/-- The two maps of `has_cycle`. -/
structure TaskGraph where
  inDegree : ExtTreeMap String Nat := ∅
  adj : ExtTreeMap String (List String) := ∅

/-- `entry(key).or_insert(value)`. -/
def orInsert {β : Type} (m : ExtTreeMap String β) (key : String) (value : β) :
    ExtTreeMap String β :=
  m.insertIfNew key value

/-- One edge from a dependency to the task. -/
def TaskGraph.addEdge (id : String) (g : TaskGraph) (dep : String) : TaskGraph where
  inDegree := g.inDegree.insert id (g.inDegree[id]?.getD 0 + 1)
  adj := g.adj.insert dep (g.adj[dep]?.getD [] ++ [id])

def TaskGraph.addTask (g : TaskGraph) (task : PlanTask) : TaskGraph :=
  task.dependsOn.foldl (TaskGraph.addEdge task.id)
    { inDegree := orInsert g.inDegree task.id 0, adj := orInsert g.adj task.id [] }

def TaskGraph.of (tasks : List PlanTask) : TaskGraph := tasks.foldl TaskGraph.addTask {}

/-- Release one neighbour: its in-degree drops, and at zero it joins the queue. -/
def releaseNeighbour (p : ExtTreeMap String Nat × List String) (nb : String) :
    ExtTreeMap String Nat × List String :=
  match p.1[nb]? with
  | some d => (p.1.insert nb (d - 1), if d - 1 = 0 then p.2 ++ [nb] else p.2)
  | none => p

/-- The queue loop; it returns the number of visited tasks. -/
def visitTasks (adj : ExtTreeMap String (List String)) :
    Nat → ExtTreeMap String Nat → List String → Nat → Nat
  | 0, _, _, visited => visited
  | _ + 1, _, [], visited => visited
  | fuel + 1, inDegree, id :: queue, visited =>
    let p := (adj[id]?.getD []).foldl releaseNeighbour (inDegree, queue)
    visitTasks adj fuel p.1 p.2 (visited + 1)

/-- Iterations enough for the queue loop: every task and every edge puts one entry on the queue. -/
def cycleFuel (tasks : List PlanTask) : Nat :=
  1 + tasks.length + (tasks.map fun t => t.dependsOn.length).sum

namespace Platform

variable (P : Platform)

/-- `has_cycle`: Kahn's algorithm does not reach every task. -/
def hasCycle (tasks : List PlanTask) : Bool :=
  let g := TaskGraph.of tasks
  let queue := (P.hashOrder String g.inDegree.keys).filter fun id => g.inDegree[id]? = some 0
  visitTasks g.adj (cycleFuel tasks) g.inDegree queue 0 ≠ tasks.length

/-! ## Plans -/

/-- The result a task cites is an accepted Result of this plan's request. -/
def checkTaskResult (prior : Prior) (s : State) (r : Record) (requestId : RecordId)
    (task : PlanTask) : Option ReasonCode :=
  match task.resultRecordId with
  | none => none
  | some resultId =>
    rejectIf (task.status ≠ .done ∧ task.status ≠ .failed) .invalidPayload <|>
    orReject (prior.find resultId) .invalidPayload fun result =>
      rejectIf (result.kind ≠ .result ∨ resultId ∉ s.acceptedRecords ∨ result.thread ≠ r.thread ∨
        result.space ≠ r.space) .invalidPayload <|>
      orReject (P.decode ResultData result.data) .invalidPayload fun resultData =>
      orReject (prior.find resultData.actionId) .invalidPayload fun action =>
      orReject (P.decode ActionData action.data) .invalidPayload fun actionData =>
        rejectIf (actionData.requestId ≠ requestId) .invalidPayload

def taskTerminal (t : PlanTask) : Bool :=
  t.status = .done || t.status = .failed || t.status = .skipped

/-- The overall status disagrees with the task statuses. -/
def planStatusInvalid (data : PlanData) : Bool :=
  match data.status with
  | .running => !data.tasks.any fun t => t.status = .pending || t.status = .running
  | .completed => !data.tasks.all fun t => t.status = .done
  | .abandoned => !data.tasks.all taskTerminal ||
      !data.tasks.any fun t => t.status = .failed || t.status = .skipped

/-- `check_plan`. -/
def checkPlan (prior : Prior) (s : State) (r : Record) : Option ReasonCode :=
  orReject (P.decode PlanData r.data) .invalidPayload fun data =>
    let ids := data.tasks.map PlanTask.id
    rejectIf (r.onlyRef .cause data.requestId = false) .requestMissing <|>
    withActiveRequest prior s r data.requestId fun _ =>
      rejectIf (data.tasks = []) .invalidPayload <|>
      rejectIf (¬ids.Nodup) .invalidPayload <|>
      rejectIf (∃ t ∈ data.tasks, ∃ dep ∈ t.dependsOn ++ t.inputsFrom, dep ∉ ids)
        .invalidPayload <|>
      data.tasks.findSome? (P.checkTaskResult prior s r data.requestId) <|>
      rejectIf (P.hasCycle data.tasks = true) .invalidPayload <|>
      rejectIf (planStatusInvalid data = true) .invalidPayload

/-! ## Retractions and approvals -/

/-- `check_retraction`. -/
def checkRetraction (rules : VerifierRules) (prior : Prior) (s : State) (r : Record) :
    Option ReasonCode :=
  orReject (P.decode RetractionData r.data) .invalidPayload fun data =>
    rejectIf (r.onlyRef .cause data.targetId = false) .invalidPayload <|>
    orReject (prior.find data.targetId) .refUnresolved fun target =>
      rejectIf (data.targetId ∉ s.acceptedRecords) .invalidPayload <|>
      rejectIf (target.kind = .verdict ∨ target.kind = .retraction) .invalidPayload <|>
      rejectIf (r.author.id ≠ target.author.id ∧ r.author.id ∉ rules.adminRetractionActors)
        .authorRoleInvalid

/-- `check_approval`. -/
def checkApproval (r : Record) : Option ReasonCode :=
  orReject (P.decode ApprovalData r.data) .invalidPayload fun data =>
    rejectIf (data.targetAction.isSome = data.actionClass.isSome) .invalidPayload <|>
    rejectIf (data.targetAction.isSome = true ∧ data.actorId.isNone = true) .invalidPayload

end Platform

end Bellbook
