import Mathlib.Data.List.Pairwise
import Mathlib.Logic.Relation
import Mathlib.Order.Lattice.Nat

/-!
# Breadth-first search

The search that marks a node when it leaves the queue, so that a node may wait several times.

* `Inv` is the invariant of the loop: the nodes found so far and the queue, each with the level at
  which it was pushed. It holds at the start (`Inv.start`) and is kept when the node at the head was
  found before (`Inv.skip`) and when it is new (`Inv.visit`).
* When the queue is empty, the found nodes are those that can be reached (`Inv.mem_iff`), and they
  stand by their distance from the start (`Inv.pairwise_distance`).
-/

namespace Bellbook.BreadthFirst

open Relation

variable {α : Type} (E : α → α → Prop)

/-- A walk of so many edges. -/
inductive Walk : Nat → α → α → Prop
  | refl (x : α) : Walk 0 x x
  | tail {n : Nat} {x y z : α} (hwalk : Walk n x y) (hedge : E y z) : Walk (n + 1) x z

/-- The length of a shortest walk. -/
noncomputable def distance (x y : α) : Nat := sInf {n | Walk E n x y}

variable {E}

theorem exists_walk_iff {x y : α} : (∃ n, Walk E n x y) ↔ ReflTransGen E x y := by
  constructor
  · rintro ⟨n, hwalk⟩
    induction hwalk with
    | refl x => exact .refl
    | tail _ hedge ih => exact ih.tail hedge
  · intro hpath
    induction hpath with
    | refl => exact ⟨0, .refl x⟩
    | tail _ hedge ih =>
      obtain ⟨n, hwalk⟩ := ih
      exact ⟨n + 1, hwalk.tail hedge⟩

theorem distance_eq {x y : α} {n : Nat} (hwalk : Walk E n x y) (hleast : ∀ m, Walk E m x y → n ≤ m) :
    distance E x y = n := by
  apply Nat.le_antisymm
  · exact Nat.sInf_le hwalk
  · exact hleast _ (Nat.sInf_mem (s := {n | Walk E n x y}) ⟨n, hwalk⟩)

/-- The invariant of the loop, with the level of each node. -/
structure Inv (E : α → α → Prop) (source : α) (found queue : List (α × Nat)) : Prop where
  nodup : (source :: found.map Prod.fst).Nodup
  levels : (found ++ queue).Pairwise fun p q => p.2 ≤ q.2
  near : ∀ p ∈ queue, ∀ q ∈ queue, q.2 ≤ p.2 + 1
  walk : ∀ p ∈ found ++ queue, Walk E p.2 source p.1
  least : ∀ p ∈ found, ∀ n, Walk E n source p.1 → p.2 ≤ n
  closed : ∀ p ∈ (source, 0) :: found, ∀ z, E p.1 z →
    ∃ l ≤ p.2 + 1, (z, l) ∈ (source, 0) :: (found ++ queue)

section Loop

variable {source x : α} {found queue : List (α × Nat)} {l : Nat} {targets : List α}

theorem Inv.start (htargets : ∀ z, z ∈ targets ↔ E source z) :
    Inv E source [] (targets.map fun z => (z, 1)) where
  nodup := by simp
  levels := List.pairwise_map.mpr (List.pairwise_of_forall fun _ _ => Nat.le_refl _)
  near p hp q hq := by
    obtain ⟨_, -, rfl⟩ := List.mem_map.mp hp
    obtain ⟨_, -, rfl⟩ := List.mem_map.mp hq
    exact Nat.le_succ _
  walk p hp := by
    rw [List.nil_append] at hp
    obtain ⟨z, hz, rfl⟩ := List.mem_map.mp hp
    exact (Walk.refl source).tail ((htargets z).mp hz)
  least p hp := by cases hp
  closed p hp z hedge := by
    rw [List.mem_singleton.mp hp] at hedge ⊢
    exact ⟨1, Nat.le_refl _, List.mem_cons_of_mem _ (List.mem_map.mpr ⟨z, (htargets z).mpr hedge, rfl⟩)⟩

/-- A node that was found before leaves the queue. -/
theorem Inv.skip (h : Inv E source found ((x, l) :: queue)) (hx : x ∈ source :: found.map Prod.fst) :
    Inv E source found queue where
  nodup := h.nodup
  levels := h.levels.sublist ((List.sublist_cons_self _ _).append_left _)
  near p hp q hq := h.near p (List.mem_cons_of_mem _ hp) q (List.mem_cons_of_mem _ hq)
  walk p hp := h.walk p (((List.sublist_cons_self _ _).append_left _).mem hp)
  least := h.least
  closed p hp z hedge := by
    obtain ⟨l', hl', hz⟩ := h.closed p hp z hedge
    simp only [List.mem_cons, List.mem_append] at hz
    rcases hz with hz | hz | hz | hz
    · exact ⟨l', hl', by simp [hz]⟩
    · exact ⟨l', hl', by simp [hz]⟩
    · -- the entry at the head: the node has a level already, which is no higher
      cases hz
      rcases List.mem_cons.mp hx with rfl | hx
      · exact ⟨0, Nat.zero_le _, List.mem_cons_self⟩
      · obtain ⟨⟨y, k⟩, hy, rfl⟩ := List.mem_map.mp hx
        have hk : k ≤ l := (List.pairwise_append.mp h.levels).2.2 _ hy _ List.mem_cons_self
        exact ⟨k, Nat.le_trans hk hl', by simp [hy]⟩
    · exact ⟨l', hl', by simp [hz]⟩

/-- A walk ends at a found node, or it left the found nodes through the queue. -/
theorem Inv.walk_cases (h : Inv E source found queue) {n : Nat} {y : α} (hwalk : Walk E n source y) :
    (∃ k ≤ n, (y, k) ∈ (source, 0) :: found) ∨ ∃ q ∈ queue, q.2 ≤ n := by
  generalize hfrom : source = first at hwalk
  induction hwalk with
  | refl y =>
    subst hfrom
    exact .inl ⟨0, Nat.le_refl _, List.mem_cons_self⟩
  | @tail n _ y z _ hedge ih =>
    subst hfrom
    rcases ih rfl with ⟨k, hk, hy⟩ | ⟨q, hq, hle⟩
    · obtain ⟨l, hl, hz⟩ := h.closed (y, k) hy z hedge
      have hln : l ≤ n + 1 := Nat.le_trans hl (Nat.succ_le_succ hk)
      rw [← List.cons_append, List.mem_append] at hz
      rcases hz with hz | hz
      · exact .inl ⟨l, hln, hz⟩
      · exact .inr ⟨(z, l), hz, hln⟩
    · exact .inr ⟨q, hq, Nat.le_succ_of_le hle⟩

/-- The head of the queue, when it is new, waits at its distance. -/
theorem Inv.head_least (h : Inv E source found ((x, l) :: queue)) (hx : x ∉ source :: found.map Prod.fst)
    {n : Nat} (hwalk : Walk E n source x) : l ≤ n := by
  rcases h.walk_cases hwalk with ⟨k, -, hmem⟩ | ⟨q, hq, hle⟩
  · have : x ∈ source :: found.map Prod.fst := List.mem_map_of_mem (f := Prod.fst) hmem
    exact absurd this hx
  · have hhead := List.pairwise_cons.mp (List.pairwise_append.mp h.levels).2.1
    rcases List.mem_cons.mp hq with rfl | hq
    · exact hle
    · exact Nat.le_trans (hhead.1 q hq) hle

/-- A new node leaves the queue, and its successors wait one level higher. -/
theorem Inv.visit (h : Inv E source found ((x, l) :: queue)) (hx : x ∉ source :: found.map Prod.fst)
    (htargets : ∀ z, z ∈ targets ↔ E x z) :
    Inv E source (found ++ [(x, l)]) (queue ++ targets.map fun z => (z, l + 1)) := by
  have hlist : found ++ [(x, l)] ++ (queue ++ targets.map fun z => (z, l + 1)) =
      found ++ (x, l) :: queue ++ targets.map fun z => (z, l + 1) := by simp
  -- between the level of the head and the one above it, everything in the queue
  have hlow : ∀ q ∈ queue, l ≤ q.2 :=
    (List.pairwise_cons.mp (List.pairwise_append.mp h.levels).2.1).1
  have hhigh : ∀ q ∈ queue, q.2 ≤ l + 1 := fun q hq =>
    h.near (x, l) List.mem_cons_self q (List.mem_cons_of_mem _ hq)
  have hqueue : ∀ q ∈ queue ++ targets.map (fun z => (z, l + 1)), l ≤ q.2 ∧ q.2 ≤ l + 1 := by
    intro q hq
    rcases List.mem_append.mp hq with hq | hq
    · exact ⟨hlow q hq, hhigh q hq⟩
    · obtain ⟨z, -, rfl⟩ := List.mem_map.mp hq
      exact ⟨Nat.le_succ _, Nat.le_refl _⟩
  refine ⟨?_, ?_, ?_, ?_, ?_, ?_⟩
  · rw [List.map_append, List.map_singleton, ← List.cons_append]
    exact List.nodup_append.mpr ⟨h.nodup, by simp, fun a ha b hb => by
      rw [List.mem_singleton.mp hb]
      rintro rfl
      exact hx ha⟩
  · rw [hlist]
    refine List.pairwise_append.mpr ⟨h.levels, ?_, ?_⟩
    · exact List.pairwise_map.mpr (List.pairwise_of_forall fun _ _ => Nat.le_refl _)
    · intro p hp q hq
      obtain ⟨z, -, rfl⟩ := List.mem_map.mp hq
      rcases List.mem_append.mp hp with hp | hp
      · have := (List.pairwise_append.mp h.levels).2.2 p hp _ List.mem_cons_self
        exact Nat.le_succ_of_le this
      · exact h.near (x, l) List.mem_cons_self p hp
  · intro p hp q hq
    exact Nat.le_trans (hqueue q hq).2 (Nat.succ_le_succ (hqueue p hp).1)
  · intro p hp
    rw [hlist] at hp
    rcases List.mem_append.mp hp with hp | hp
    · exact h.walk p hp
    · obtain ⟨z, hz, rfl⟩ := List.mem_map.mp hp
      exact (h.walk (x, l) (by simp)).tail ((htargets z).mp hz)
  · intro p hp n hwalk
    rcases List.mem_append.mp hp with hp | hp
    · exact h.least p hp n hwalk
    · rw [List.mem_singleton.mp hp] at hwalk ⊢
      exact h.head_least hx hwalk
  · intro p hp z hedge
    rw [hlist]
    rw [← List.cons_append, List.mem_append, List.mem_singleton] at hp
    rcases hp with hp | rfl
    · obtain ⟨k, hk, hz⟩ := h.closed p hp z hedge
      refine ⟨k, hk, ?_⟩
      rw [← List.cons_append]
      exact List.mem_append_left _ hz
    · refine ⟨l + 1, Nat.le_refl _, List.mem_cons_of_mem _ (List.mem_append_right _ ?_)⟩
      exact List.mem_map.mpr ⟨z, (htargets z).mpr hedge, rfl⟩

/-- **At the end the found nodes are the reachable ones**, without the start. -/
theorem Inv.mem_iff (h : Inv E source found []) {y : α} :
    y ∈ found.map Prod.fst ↔ TransGen E source y ∧ y ≠ source := by
  constructor
  · intro hy
    have hne : y ≠ source := by
      rintro rfl
      exact (List.nodup_cons.mp h.nodup).1 hy
    obtain ⟨p, hp, rfl⟩ := List.mem_map.mp hy
    have hreach := exists_walk_iff.mp ⟨_, h.walk p (List.mem_append_left _ hp)⟩
    rcases reflTransGen_iff_eq_or_transGen.mp hreach with heq | hpath
    · exact absurd heq hne
    · exact ⟨hpath, hne⟩
  · rintro ⟨hpath, hne⟩
    obtain ⟨n, hwalk⟩ := exists_walk_iff.mpr hpath.to_reflTransGen
    rcases h.walk_cases hwalk with ⟨k, -, hy⟩ | ⟨q, hq, -⟩
    · rcases List.mem_cons.mp hy with heq | hy
      · exact absurd (congrArg Prod.fst heq) hne
      · exact List.mem_map_of_mem hy
    · cases hq

/-- **The found nodes stand by their distance.** -/
theorem Inv.pairwise_distance (h : Inv E source found queue) :
    (found.map Prod.fst).Pairwise fun a b => distance E source a ≤ distance E source b := by
  have hdist : ∀ p ∈ found, distance E source p.1 = p.2 := fun p hp =>
    distance_eq (h.walk p (List.mem_append_left _ hp)) (h.least p hp)
  rw [List.pairwise_map]
  refine (List.pairwise_append.mp h.levels).1.imp_of_mem ?_
  intro p q hp hq hle
  rw [hdist p hp, hdist q hq]
  exact hle

end Loop

end Bellbook.BreadthFirst
