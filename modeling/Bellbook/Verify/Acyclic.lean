import Bellbook.Lib.Kahn
import Bellbook.Verify.Lineage

/-!
# The cycle test of plans (`verify/verifier/plans.rs`)

`has_cycle` counts the edges of the `depends_on` graph in two hash maps and runs Kahn's algorithm on
them. The maps hold what the algorithm needs (`graphOf_spec`), the loop keeps its invariant, with the
in-degrees in a map (`visits_of_inv`), and so it visits every task if and only if no task depends on
itself through others.

`Visits` is the loop without fuel, with the subtraction checked: it has a derivation only where the
loop ends and no in-degree goes below zero.
-/

namespace Bellbook

open Std Relation Kahn

/-- A task of the list depends on the other one. -/
def DependsOn (tasks : List PlanTask) (id dep : String) : Prop :=
  ∃ t ∈ tasks, t.id = id ∧ dep ∈ t.dependsOn

/-- The edges from dependencies to tasks, with multiplicity. -/
def taskEdges (tasks : List PlanTask) : List (String × String) :=
  tasks.flatMap fun t => t.dependsOn.map fun dep => (dep, t.id)

/-- `*d -= 1`, where that does not go below zero. -/
def checkedRelease (p : ExtTreeMap String Nat × List String) (nb : String) :
    Option (ExtTreeMap String Nat × List String) :=
  if p.1[nb]? = some 0 then none else some (releaseNeighbour p nb)

/-- The queue loop, from these in-degrees and this queue, ends after so many visits. -/
inductive Visits (adj : ExtTreeMap String (List String)) :
    ExtTreeMap String Nat → List String → Nat → Prop
  | done (inDegree : ExtTreeMap String Nat) : Visits adj inDegree [] 0
  | visit {inDegree inDegree' : ExtTreeMap String Nat} {id : String} {queue queue' : List String}
      {n : Nat} : (adj[id]?.getD []).foldlM checkedRelease (inDegree, queue) = some (inDegree', queue') →
      Visits adj inDegree' queue' n → Visits adj inDegree (id :: queue) (n + 1)

/-! ## The graph -/

/-- The maps hold these nodes and these edges. -/
structure GraphSpec (g : TaskGraph) (nodes : List String) (edges : List (String × String)) : Prop where
  inDegree : ∀ id, g.inDegree[id]? = if id ∈ nodes then some (pending edges [] id) else none
  adj : ∀ id, g.adj[id]?.getD [] = targets edges id
  targets : ∀ e ∈ edges, e.2 ∈ nodes

section Graph

variable {g : TaskGraph} {nodes : List String} {edges : List (String × String)} {id dep : String}

theorem GraphSpec.empty : GraphSpec {} [] [] where
  inDegree _ := by simp
  adj _ := by simp [Kahn.targets]
  targets _ he := by cases he

theorem GraphSpec.addNode (h : GraphSpec g nodes edges) (hid : id ∉ nodes) :
    GraphSpec { inDegree := orInsert g.inDegree id 0, adj := orInsert g.adj id [] } (nodes ++ [id])
      edges where
  inDegree k := by
    have hnone : g.inDegree[id]? = none := by rw [h.inDegree, if_neg hid]
    have hnew : id ∉ g.inDegree := by simpa using hnone
    rw [orInsert, ExtTreeMap.getElem?_insertIfNew]
    by_cases hk : id = k
    · subst hk
      have hzero : pending edges [] id = 0 :=
        pending_eq_zero.mpr fun d hedge => absurd (h.targets _ hedge) hid
      rw [if_pos ⟨ReflCmp.compare_self, hnew⟩, if_pos (by simp), hzero]
    · have hcmp : compare id k ≠ .eq := fun heq => hk (LawfulEqOrd.compare_eq_iff_eq.mp heq)
      rw [if_neg (fun hand => hcmp hand.1), h.inDegree]
      simp [Ne.symm hk]
  adj k := by
    show (orInsert g.adj id [])[k]?.getD [] = _
    rw [← h.adj k, orInsert, ExtTreeMap.getElem?_insertIfNew]
    split
    · next hnew =>
      obtain ⟨hcmp, hnew⟩ := hnew
      obtain rfl := LawfulEqOrd.compare_eq_iff_eq.mp hcmp
      have hnone : g.adj[id]? = none := by simpa using hnew
      rw [hnone]
      rfl
    · rfl
  targets e he := List.mem_append_left _ (h.targets e he)

theorem GraphSpec.addEdge (h : GraphSpec g nodes edges) (hid : id ∈ nodes) (dep : String) :
    GraphSpec (g.addEdge id dep) nodes (edges ++ [(dep, id)]) where
  inDegree k := by
    rw [TaskGraph.addEdge, ExtTreeMap.getElem?_insert]
    by_cases hk : id = k
    · subst hk
      rw [if_pos ReflCmp.compare_self, h.inDegree, if_pos hid, if_pos hid]
      simp [pending, List.countP_append]
    · have hcmp : compare id k ≠ .eq := fun heq => hk (LawfulEqOrd.compare_eq_iff_eq.mp heq)
      rw [if_neg hcmp, h.inDegree]
      simp [pending, List.countP_append, hk]
  adj k := by
    rw [TaskGraph.addEdge, ExtTreeMap.getElem?_insert]
    by_cases hk : dep = k
    · subst hk
      rw [if_pos ReflCmp.compare_self, Option.getD_some, h.adj]
      simp [Kahn.targets]
    · have hcmp : compare dep k ≠ .eq := fun heq => hk (LawfulEqOrd.compare_eq_iff_eq.mp heq)
      rw [if_neg hcmp, h.adj]
      simp [Kahn.targets, hk]
  targets e he := by
    rcases List.mem_append.mp he with he | he
    · exact h.targets e he
    · rw [List.mem_singleton.mp he]
      exact hid

theorem GraphSpec.addEdges (hid : id ∈ nodes) (deps : List String) :
    ∀ {g : TaskGraph} {edges : List (String × String)}, GraphSpec g nodes edges →
      GraphSpec (deps.foldl (TaskGraph.addEdge id) g) nodes (edges ++ deps.map fun dep => (dep, id)) := by
  induction deps with
  | nil =>
    intro g edges h
    simpa using h
  | cons dep deps ih =>
    intro g edges h
    simpa using ih (h.addEdge hid dep)

/-- **The maps of `has_cycle`** hold the tasks and their edges. -/
theorem graphOf_spec {tasks : List PlanTask} (hids : (tasks.map PlanTask.id).Nodup) :
    GraphSpec (TaskGraph.of tasks) (tasks.map PlanTask.id) (taskEdges tasks) := by
  induction tasks using List.reverseRecOn with
  | nil => exact .empty
  | append_singleton tasks t ih =>
    rw [List.map_append, List.map_singleton] at hids
    have hnew : t.id ∉ tasks.map PlanTask.id := by
      intro hmem
      exact (List.nodup_append.mp hids).2.2 t.id hmem t.id List.mem_cons_self rfl
    have hnode := (ih (List.nodup_append.mp hids).1).addNode hnew
    have hid : t.id ∈ tasks.map PlanTask.id ++ [t.id] := by simp
    have hedges := GraphSpec.addEdges hid t.dependsOn hnode
    have hof : TaskGraph.of (tasks ++ [t]) = (TaskGraph.of tasks).addTask t := by simp [TaskGraph.of]
    rw [hof]
    simpa [TaskGraph.addTask, taskEdges] using hedges

end Graph

/-! ## The loop -/

section Loop

variable {nodes visited rest queue : List String} {edges : List (String × String)}
  {adj : ExtTreeMap String (List String)} {inDegree : ExtTreeMap String Nat} {deg : String → Nat}

/-- The map holds these in-degrees. -/
def Holds (inDegree : ExtTreeMap String Nat) (nodes : List String) (deg : String → Nat) : Prop :=
  ∀ t ∈ nodes, inDegree[t]? = some (deg t)

/-- The targets of a visited task are released, none of them below zero. -/
theorem foldlM_release (hrest : ∀ nb ∈ rest, nb ∈ nodes) :
    ∀ {inDegree : ExtTreeMap String Nat} {deg : String → Nat} {queue : List String},
      Inv nodes edges visited rest deg queue → Holds inDegree nodes deg →
      ∃ inDegree' queue' deg', rest.foldlM checkedRelease (inDegree, queue) = some (inDegree', queue') ∧
        Inv nodes edges visited [] deg' queue' ∧ Holds inDegree' nodes deg' := by
  induction rest with
  | nil =>
    intro inDegree deg queue hinv hholds
    exact ⟨inDegree, queue, deg, rfl, hinv, hholds⟩
  | cons nb rest ih =>
    intro inDegree deg queue hinv hholds
    have hnb : nb ∈ nodes := hrest nb List.mem_cons_self
    obtain ⟨hpos, hinv'⟩ := hinv.release hnb
    have hholds' : Holds (inDegree.insert nb (deg nb - 1)) nodes
        (Function.update deg nb (deg nb - 1)) := by
      intro t ht
      rw [ExtTreeMap.getElem?_insert]
      by_cases hk : nb = t
      · subst hk
        rw [if_pos ReflCmp.compare_self, Function.update_self]
      · have hcmp : compare nb t ≠ .eq := fun heq => hk (LawfulEqOrd.compare_eq_iff_eq.mp heq)
        rw [if_neg hcmp, Function.update_of_ne (Ne.symm hk), hholds t ht]
    have hstep : checkedRelease (inDegree, queue) nb = some (inDegree.insert nb (deg nb - 1),
        if deg nb - 1 = 0 then queue ++ [nb] else queue) := by
      rw [checkedRelease, if_neg, releaseNeighbour]
      · simp only [hholds nb hnb]
      · rw [hholds nb hnb, Option.some.injEq]
        omega
    rw [List.foldlM_cons, hstep]
    exact ih (fun x hx => hrest x (List.mem_cons_of_mem _ hx)) hinv' hholds'

/-- **The loop ends**, with the invariant. -/
theorem visits_of_inv (hadj : ∀ id, adj[id]?.getD [] = targets edges id)
    (hedges : ∀ e ∈ edges, e.1 ∈ nodes ∧ e.2 ∈ nodes) {k : Nat} :
    ∀ {visited queue : List String} {inDegree : ExtTreeMap String Nat} {deg : String → Nat},
      nodes.length - visited.length ≤ k → Inv nodes edges visited [] deg queue →
      Holds inDegree nodes deg → ∃ n visited' deg', Visits adj inDegree queue n ∧
        Inv nodes edges visited' [] deg' [] ∧ visited'.length = visited.length + n := by
  induction k with
  | zero =>
    intro visited queue inDegree deg hk hinv hholds
    have hlen := hinv.length_le
    obtain rfl : queue = [] := List.length_eq_zero_iff.mp (by omega)
    exact ⟨0, visited, deg, .done _, hinv, rfl⟩
  | succ k ih =>
    intro visited queue inDegree deg hk hinv hholds
    cases queue with
    | nil => exact ⟨0, visited, deg, .done _, hinv, rfl⟩
    | cons id queue =>
      have hlen := hinv.length_le
      rw [List.length_cons] at hlen
      have hrest : ∀ nb ∈ targets edges id, nb ∈ nodes := by
        intro nb hnb
        obtain ⟨e, he, rfl⟩ := List.mem_map.mp hnb
        exact (hedges e (List.mem_filter.mp he).1).2
      obtain ⟨inDegree', queue', deg', hrelease, hinv', hholds'⟩ :=
        foldlM_release hrest hinv.pop hholds
      obtain ⟨n, visited', deg'', hvisits, hend, hcount⟩ :=
        ih (by rw [List.length_cons]; omega) hinv' hholds'
      refine ⟨n + 1, visited', deg'', ?_, hend, ?_⟩
      · rw [← hadj id] at hrelease
        exact .visit hrelease hvisits
      · rw [hcount, List.length_cons]
        omega

theorem foldl_of_foldlM {l : List String} : ∀ {p q : ExtTreeMap String Nat × List String},
    l.foldlM checkedRelease p = some q → l.foldl releaseNeighbour p = q := by
  induction l with
  | nil =>
    intro p q h
    exact Option.some.inj h
  | cons nb l ih =>
    intro p q h
    rw [List.foldlM_cons] at h
    obtain ⟨p', hp', hrest⟩ := Option.bind_eq_some_iff.mp h
    unfold checkedRelease at hp'
    split at hp'
    · cases hp'
    · cases hp'
      exact ih hrest

/-- With enough fuel the loop of the model counts these visits. -/
theorem Visits.visitTasks_eq {n : Nat} (h : Visits adj inDegree queue n) :
    ∀ {fuel : Nat} (visited : Nat), n < fuel →
      visitTasks adj fuel inDegree queue visited = visited + n := by
  induction h with
  | done inDegree =>
    intro fuel visited hfuel
    obtain ⟨fuel, rfl⟩ := Nat.exists_eq_succ_of_ne_zero (show fuel ≠ 0 by omega)
    rfl
  | visit hrelease _ ih =>
    intro fuel visited hfuel
    obtain ⟨fuel, rfl⟩ := Nat.exists_eq_succ_of_ne_zero (show fuel ≠ 0 by omega)
    rw [visitTasks]
    simp only [foldl_of_foldlM hrelease]
    rw [ih (visited + 1) (by omega)]
    omega

end Loop

/-! ## Cycles -/

section Cycles

variable {tasks : List PlanTask}

theorem mem_taskEdges {dep id : String} : (dep, id) ∈ taskEdges tasks ↔ DependsOn tasks id dep := by
  simp only [taskEdges, DependsOn, List.mem_flatMap, List.mem_map, Prod.mk.injEq]
  constructor
  · rintro ⟨t, ht, d, hd, rfl, rfl⟩
    exact ⟨t, ht, rfl, hd⟩
  · rintro ⟨t, ht, rfl, hd⟩
    exact ⟨t, ht, dep, hd, rfl, rfl⟩

/-- The edges are the dependencies, turned round. -/
theorem taskEdges_cycle_iff :
    (∃ id, TransGen (Edge (taskEdges tasks)) id id) ↔ ∃ id, TransGen (DependsOn tasks) id id := by
  have hswap : Edge (taskEdges tasks) = Function.swap (DependsOn tasks) := by
    funext dep id
    exact propext mem_taskEdges
  simp only [hswap, transGen_swap]

/-- The queue the loop starts with. -/
def Platform.startQueue (P : Platform) (tasks : List PlanTask) : List String :=
  (P.hashOrder String (TaskGraph.of tasks).inDegree.keys).filter fun id =>
    (TaskGraph.of tasks).inDegree[id]? = some 0

theorem GraphSpec.keys_perm {g : TaskGraph} {nodes : List String} {edges : List (String × String)}
    (h : GraphSpec g nodes edges) (hnodes : nodes.Nodup) : g.inDegree.keys.Perm nodes := by
  apply (List.perm_ext_iff_of_nodup ExtTreeMap.nodup_keys hnodes).mpr
  intro id
  rw [ExtTreeMap.mem_keys, ← ExtTreeMap.isSome_getElem?_iff_mem, h.inDegree]
  by_cases hid : id ∈ nodes
  · simp [hid]
  · simp [hid]

theorem startQueue_perm {P : Platform} (horder : P.HashOrderPermutes)
    (hids : (tasks.map PlanTask.id).Nodup) :
    (P.startQueue tasks).Perm
      ((tasks.map PlanTask.id).filter fun t => pending (taskEdges tasks) [] t = 0) := by
  have hspec := graphOf_spec hids
  have hperm := (horder String _).trans (hspec.keys_perm hids)
  refine (hperm.filter _).trans (.of_eq ?_)
  apply List.filter_congr
  intro t ht
  rw [hspec.inDegree t, if_pos ht]
  simp

/-- The loop ends after some visits, of all the tasks if and only if there is no cycle. -/
theorem hasCycle_visits {P : Platform} (horder : P.HashOrderPermutes)
    (hids : (tasks.map PlanTask.id).Nodup)
    (hdeps : ∀ t ∈ tasks, ∀ dep ∈ t.dependsOn, dep ∈ tasks.map PlanTask.id) :
    ∃ n, Visits (TaskGraph.of tasks).adj (TaskGraph.of tasks).inDegree (P.startQueue tasks) n ∧
      P.hasCycle tasks = decide (n ≠ tasks.length) ∧
      (n = tasks.length ↔ ¬∃ id, TransGen (DependsOn tasks) id id) := by
  have hspec := graphOf_spec hids
  have hedges : ∀ e ∈ taskEdges tasks, e.1 ∈ tasks.map PlanTask.id ∧ e.2 ∈ tasks.map PlanTask.id := by
    intro e he
    obtain ⟨t, ht, -, hdep⟩ := mem_taskEdges.mp he
    exact ⟨hdeps t ht e.1 hdep, hspec.targets e he⟩
  have hstart : Inv (tasks.map PlanTask.id) (taskEdges tasks) [] [] (pending (taskEdges tasks) [])
      (P.startQueue tasks) := .start hids (fun _ _ => rfl) (startQueue_perm horder hids)
  have hholds : Holds (TaskGraph.of tasks).inDegree (tasks.map PlanTask.id)
      (pending (taskEdges tasks) []) := by
    intro t ht
    rw [hspec.inDegree t, if_pos ht]
  obtain ⟨n, visited, deg, hvisits, hend, hcount⟩ :=
    visits_of_inv hspec.adj hedges (Nat.le_refl _) hstart hholds
  rw [List.length_nil, Nat.zero_add] at hcount
  have hle := hend.length_le
  rw [hcount, List.length_map, List.length_nil, Nat.add_zero] at hle
  -- the fuel of the model is more than the number of visits
  have hfuel : n < cycleFuel tasks := by
    unfold cycleFuel
    omega
  refine ⟨n, hvisits, ?_, ?_⟩
  · have hloop := hvisits.visitTasks_eq 0 hfuel
    rw [Nat.zero_add] at hloop
    show decide (visitTasks _ _ _ (P.startQueue tasks) 0 ≠ _) = _
    rw [hloop]
  · have hall := hend.visited_all_iff hids hedges
    rwa [hcount, List.length_map, taskEdges_cycle_iff] at hall

/-- A plan that passes has no cycle: `check_plan` tests the ids and the dependencies first. -/
theorem checkPlan_acyclic {P : Platform} (horder : P.HashOrderPermutes) {prior : Prior} {s : State}
    {r : Record} {data : PlanData} (hdata : P.decode PlanData r.data = some data)
    (h : P.checkPlan prior s r = none) : ¬∃ id, TransGen (DependsOn data.tasks) id id := by
  simp only [Platform.checkPlan, hdata, orReject_eq_none, Option.some.injEq, exists_eq_left',
    withActiveRequest, orElse_none_iff, rejectIf_eq_none, not_not] at h
  obtain ⟨-, -, -, -, -, -, hids, hdeps, -, hcycle, -⟩ := h
  have hdeps' : ∀ t ∈ data.tasks, ∀ dep ∈ t.dependsOn, dep ∈ data.tasks.map PlanTask.id := by
    intro t ht dep hdep
    by_contra hmem
    exact hdeps ⟨t, ht, dep, List.mem_append_left _ hdep, hmem⟩
  obtain ⟨n, -, hmodel, hall⟩ := hasCycle_visits horder hids hdeps'
  rw [hmodel, decide_eq_true_eq, not_not] at hcycle
  exact hall.mp hcycle

/-- **The cycle test is exact**, in every order of the hash maps: it answers whether some task depends
on itself through others. Its loop ends, and takes no in-degree below zero. -/
theorem hasCycle_iff {P : Platform} (horder : P.HashOrderPermutes) {tasks : List PlanTask}
    (hids : (tasks.map PlanTask.id).Nodup)
    (hdeps : ∀ t ∈ tasks, ∀ dep ∈ t.dependsOn, dep ∈ tasks.map PlanTask.id) :
    (P.hasCycle tasks = true ↔ ∃ id, TransGen (DependsOn tasks) id id) ∧
      ∃ n, Visits (TaskGraph.of tasks).adj (TaskGraph.of tasks).inDegree (P.startQueue tasks) n ∧
        P.hasCycle tasks = decide (n ≠ tasks.length) := by
  obtain ⟨n, hvisits, hmodel, hall⟩ := hasCycle_visits horder hids hdeps
  refine ⟨?_, n, hvisits, hmodel⟩
  rw [hmodel, decide_eq_true_eq, Ne, hall, not_not]

/-- A task with these dependencies. -/
def sampleTask (id : String) (dependsOn : List String) : PlanTask where
  id
  description := "step"
  kind := .generic
  toolHint := none
  inputsFrom := []
  produces := none
  doneWhen := .toolSuccess
  status := .pending
  resultRecordId := none
  dependsOn
  onFailure := .abort

/-- One dependency is listed twice, and one task depends on itself. -/
theorem sampleTasks_hasCycle :
    reference.hasCycle [sampleTask "a" [], sampleTask "b" ["a", "a"], sampleTask "c" ["b", "c"]] = true :=
  (hasCycle_iff (P := reference) (fun _ _ => .refl _) (by decide) (by decide)).1.mpr
    ⟨"c", .single ⟨sampleTask "c" ["b", "c"], by decide, rfl, by decide⟩⟩

end Cycles

end Bellbook
