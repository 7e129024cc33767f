import Mathlib.Data.List.Count
import Mathlib.Logic.Relation
import Mathlib.Order.WellFoundedSet

/-!
# Topological sorting with in-degrees

Kahn's algorithm on a graph with multiple edges: visit a node once no edge into it is left, then take
away the edges out of it.

* `Inv` is the invariant in the middle of a visit: the visited nodes, the targets of the last of them
  that are still to be released, the in-degrees and the queue. It holds at the start (`Inv.start`) and
  is kept by the two steps of the loop (`Inv.pop`, `Inv.release`); in a release the in-degree is
  positive.
* When the queue is empty, every node has been visited if and only if there is no cycle
  (`Inv.visited_all_iff`).
-/

namespace Bellbook.Kahn

open Relation

variable {α : Type} (edges : List (α × α))

def Edge (d t : α) : Prop := (d, t) ∈ edges

/-- Visited nodes, the latest first: each comes after the sources of the edges into it. -/
def Sorted : List α → Prop
  | [] => True
  | x :: visited => (∀ d, Edge edges d x → d ∈ visited) ∧ Sorted visited

variable {edges}

theorem Sorted.of_append {A B : List α} (h : Sorted edges (A ++ B)) : Sorted edges B := by
  induction A with
  | nil => exact h
  | cons a A ih => exact ih h.2

/-- What leads to a visited node was visited before it. -/
theorem Sorted.mem_of_transGen {x t : α} (hpath : TransGen (Edge edges) x t) :
    ∀ {A B : List α}, Sorted edges (A ++ t :: B) → x ∈ B := by
  induction hpath with
  | single hedge => exact fun h => h.of_append.1 _ hedge
  | @tail w t _ hedge ih =>
    intro A B h
    -- the last node before `t` stands in `B`, and `x` behind that
    obtain ⟨C, D, rfl⟩ := List.append_of_mem (h.of_append.1 w hedge)
    have hx : x ∈ D := by
      apply ih (A := A ++ t :: C)
      simpa using h
    simp [hx]

theorem Sorted.not_cycle {visited : List α} (h : Sorted edges visited) (hn : visited.Nodup) {x : α}
    (hx : x ∈ visited) : ¬TransGen (Edge edges) x x := by
  intro hcycle
  obtain ⟨A, B, rfl⟩ := List.append_of_mem hx
  have hmem := Sorted.mem_of_transGen hcycle h
  exact (List.nodup_cons.mp (List.nodup_append.mp hn).2.1).1 hmem

/-- Going back from node to node in a finite set ends in a cycle. -/
theorem exists_cycle {R : List α} (hne : R ≠ []) (hback : ∀ t ∈ R, ∃ d ∈ R, Edge edges d t) :
    ∃ x, TransGen (Edge edges) x x := by
  by_contra hnone
  rw [not_exists] at hnone
  have : IsStrictOrder α (TransGen (Edge edges)) := { irrefl := hnone, trans := fun _ _ _ => .trans }
  have hwf : {t | t ∈ R}.WellFoundedOn (TransGen (Edge edges)) := (List.finite_toSet R).wellFoundedOn
  obtain ⟨t, ht⟩ := List.exists_mem_of_ne_nil R hne
  obtain ⟨m, hm, hmin⟩ := hwf.has_min (s := Set.univ) ⟨⟨t, ht⟩, trivial⟩
  obtain ⟨d, hd, hedge⟩ := hback m.1 m.2
  exact hmin ⟨d, hd⟩ trivial (.single hedge)

/-! ## Counting edges -/

section Counting

variable [DecidableEq α]

/-- The edges into a node from nodes that have not been visited. -/
def pending (edges : List (α × α)) (visited : List α) (t : α) : Nat :=
  edges.countP fun e => e.2 = t ∧ e.1 ∉ visited

/-- The targets of the edges out of a node. -/
def targets (edges : List (α × α)) (d : α) : List α := (edges.filter fun e => e.1 = d).map Prod.snd

theorem pending_eq_zero {visited : List α} {t : α} :
    pending edges visited t = 0 ↔ ∀ d, Edge edges d t → d ∈ visited := by
  rw [pending, List.countP_eq_zero]
  constructor
  · intro h d hedge
    by_contra hd
    exact h (d, t) hedge (by simp [hd])
  · rintro h ⟨d, t'⟩ he
    simp only [decide_eq_true_eq, not_and, not_not]
    rintro rfl
    exact h d he

/-- Visiting a node takes the edges out of it away. -/
theorem pending_cons {visited : List α} {x : α} (hx : x ∉ visited) (t : α) :
    pending edges visited t = pending edges (x :: visited) t + (targets edges x).count t := by
  unfold pending targets
  induction edges with
  | nil => rfl
  | cons e edges ih =>
    obtain ⟨d, t'⟩ := e
    simp only [List.countP_cons, List.filter_cons, ih]
    by_cases hd : d = x
    · subst hd
      by_cases ht : t' = t
      · simp [ht, hx]
        omega
      · simp [ht]
    · by_cases ht : t' = t
      · by_cases hv : d ∈ visited
        · simp [hd, ht, hv]
        · simp [hd, ht, hv]
          omega
      · simp [hd, ht]

end Counting

/-! ## The loop -/

section Loop

variable [DecidableEq α]

/-- The invariant of the loop, in the middle of a visit: `rest` are the targets of the last visited
node that are still to be released. -/
structure Inv (nodes : List α) (edges : List (α × α)) (visited rest : List α) (deg : α → Nat)
    (queue : List α) : Prop where
  nodup : (visited ++ queue).Nodup
  mem : ∀ t ∈ visited ++ queue, t ∈ nodes
  degree : ∀ t ∈ nodes, deg t = pending edges visited t + rest.count t
  ready : ∀ t ∈ nodes, t ∈ visited ++ queue ↔ deg t = 0
  sorted : Sorted edges visited

variable {nodes visited rest queue : List α} {deg : α → Nat} {x : α}

/-- The nodes without edges into them wait, in any order. -/
theorem Inv.start (hnodes : nodes.Nodup) (hdeg : ∀ t ∈ nodes, deg t = pending edges [] t)
    (hqueue : queue.Perm (nodes.filter fun t => deg t = 0)) : Inv nodes edges [] [] deg queue where
  nodup := by
    rw [List.nil_append]
    exact hqueue.nodup_iff.mpr (hnodes.filter _)
  mem t ht := (List.mem_filter.mp (hqueue.mem_iff.mp ht)).1
  degree t ht := by simpa using hdeg t ht
  ready t ht := by
    rw [List.nil_append, hqueue.mem_iff, List.mem_filter]
    simp [ht]
  sorted := trivial

/-- A node is taken from the queue. -/
theorem Inv.pop (h : Inv nodes edges visited [] deg (x :: queue)) :
    Inv nodes edges (x :: visited) (targets edges x) deg queue := by
  have hperm : (x :: visited ++ queue).Perm (visited ++ x :: queue) := List.perm_middle.symm
  have hx : x ∈ visited ++ x :: queue := by simp
  have hnew : x ∉ visited := by
    intro hmem
    exact (List.nodup_append.mp h.nodup).2.2 x hmem x List.mem_cons_self rfl
  refine ⟨hperm.nodup_iff.mpr h.nodup, ?_, ?_, ?_, ?_, h.sorted⟩
  · intro t ht
    exact h.mem t (hperm.mem_iff.mp ht)
  · intro t ht
    rw [h.degree t ht, List.count_nil, Nat.add_zero, pending_cons hnew]
  · intro t ht
    rw [hperm.mem_iff, h.ready t ht]
  · have hzero := (h.ready x (h.mem x hx)).mp hx
    rw [h.degree x (h.mem x hx), List.count_nil, Nat.add_zero] at hzero
    exact pending_eq_zero.mp hzero

/-- One edge is taken away. Its target had it, and waits when it was the last one. -/
theorem Inv.release {nb : α} (h : Inv nodes edges visited (nb :: rest) deg queue) (hnb : nb ∈ nodes) :
    0 < deg nb ∧ Inv nodes edges visited rest (Function.update deg nb (deg nb - 1))
      (if deg nb - 1 = 0 then queue ++ [nb] else queue) := by
  have hdeg := h.degree nb hnb
  rw [List.count_cons_self] at hdeg
  have hpos : 0 < deg nb := by omega
  have hnew : nb ∉ visited ++ queue := by
    intro hmem
    have := (h.ready nb hnb).mp hmem
    omega
  have hdegree : ∀ t ∈ nodes, Function.update deg nb (deg nb - 1) t =
      pending edges visited t + rest.count t := by
    intro t ht
    by_cases heq : t = nb
    · subst heq
      rw [Function.update_self]
      omega
    · rw [Function.update_of_ne heq, h.degree t ht, List.count_cons_of_ne (Ne.symm heq)]
  refine ⟨hpos, ?_⟩
  by_cases hlast : deg nb - 1 = 0
  · rw [if_pos hlast]
    have hperm : (visited ++ (queue ++ [nb])).Perm (nb :: (visited ++ queue)) := by
      rw [← List.append_assoc]
      exact List.perm_append_singleton _ _
    refine ⟨hperm.nodup_iff.mpr (List.nodup_cons.mpr ⟨hnew, h.nodup⟩), ?_, hdegree, ?_, h.sorted⟩
    · intro t ht
      rcases List.mem_cons.mp (hperm.mem_iff.mp ht) with rfl | ht
      · exact hnb
      · exact h.mem t ht
    · intro t ht
      rw [hperm.mem_iff, List.mem_cons]
      by_cases heq : t = nb
      · simp [heq, hlast]
      · rw [Function.update_of_ne heq, ← h.ready t ht]
        simp [heq]
  · rw [if_neg hlast]
    refine ⟨h.nodup, h.mem, hdegree, ?_, h.sorted⟩
    intro t ht
    by_cases heq : t = nb
    · subst heq
      rw [Function.update_self]
      exact iff_of_false hnew hlast
    · rw [Function.update_of_ne heq, h.ready t ht]

theorem Inv.length_le (h : Inv nodes edges visited rest deg queue) :
    visited.length + queue.length ≤ nodes.length := by
  rw [← List.length_append]
  exact (List.subperm_of_subset h.nodup h.mem).length_le

/-- **At the end every node has been visited, or there is a cycle.** -/
theorem Inv.visited_all_iff (h : Inv nodes edges visited [] deg []) (hnodes : nodes.Nodup)
    (hedges : ∀ e ∈ edges, e.1 ∈ nodes ∧ e.2 ∈ nodes) :
    visited.length = nodes.length ↔ ¬∃ x, TransGen (Edge edges) x x := by
  have hnodup : visited.Nodup := by simpa using h.nodup
  have hsub : ∀ t ∈ visited, t ∈ nodes := by simpa using h.mem
  constructor
  · rintro hall ⟨x, hcycle⟩
    -- a node on a cycle has an edge into it, so that it is a node
    have hx : x ∈ nodes := by
      obtain ⟨d, -, hedge⟩ := TransGen.tail'_iff.mp hcycle
      exact (hedges _ hedge).2
    have hperm := (List.subperm_of_subset hnodup hsub).perm_of_length_le hall.ge
    exact h.sorted.not_cycle hnodup (hperm.mem_iff.mpr hx) hcycle
  · intro hacyclic
    by_contra hne
    apply hacyclic
    -- the nodes that were not visited still have edges into them, from each other
    have hback : ∀ t ∈ nodes.filter (· ∉ visited), ∃ d ∈ nodes.filter (· ∉ visited), Edge edges d t := by
      intro t ht
      obtain ⟨htn, htv⟩ := List.mem_filter.mp ht
      have hpos : pending edges visited t ≠ 0 := by
        intro hzero
        have hdeg := h.degree t htn
        rw [hzero, List.count_nil] at hdeg
        have := (h.ready t htn).mpr hdeg
        simp at htv this
        exact htv this
      rw [Ne, pending_eq_zero] at hpos
      simp only [not_forall, exists_prop] at hpos
      obtain ⟨d, hedge, hd⟩ := hpos
      exact ⟨d, List.mem_filter.mpr ⟨(hedges _ hedge).1, by simpa using hd⟩, hedge⟩
    refine exists_cycle ?_ hback
    intro hnil
    apply hne
    have hsub' : ∀ t ∈ nodes, t ∈ visited := by
      intro t ht
      by_contra htv
      have : t ∈ nodes.filter (· ∉ visited) := List.mem_filter.mpr ⟨ht, by simpa using htv⟩
      rw [hnil] at this
      cases this
    exact Nat.le_antisymm (List.subperm_of_subset hnodup hsub).length_le
      (List.subperm_of_subset hnodes hsub').length_le

end Loop

end Bellbook.Kahn
