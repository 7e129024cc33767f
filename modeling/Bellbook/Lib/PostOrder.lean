import Mathlib.Algebra.GroupWithZero.Nat
import Mathlib.Data.List.Sort
import Mathlib.Data.List.Pairwise

/-!
# Memoised evaluation in post-order

An explicit-stack traversal that computes a value for each node of a dependency graph from the
values of the nodes it depends on, memoising what is known.

* `run` is the loop: pop an entry; skip it if its value is known; otherwise push a marker and the
  dependencies that are still unknown, or settle the node if there are none. A node reached through
  several others is on the stack several times.
* On an acyclic graph the loop ends within `cost` iterations, and then every node of the stack has
  the value of the recursion (`run_spec`).
-/

namespace Bellbook.PostOrder

open Std

/-- Which nodes have a value, the values that are fixed in advance, what a value depends on, and
how it is made from the values it depends on. -/
structure Problem (α β : Type) where
  node : α → Bool
  base : α → Option β
  deps : α → List α
  combine : α → (α → Option β) → β

variable {α β : Type} [Ord α] [TransOrd α] (p : Problem α β)

/-- The dependencies still to be settled. -/
def todo (memo : ExtTreeMap α β) (x : α) : List α :=
  (p.deps x).filter fun d => d ∉ memo && p.node d

/-- One entry of the stack; its flag says that the dependencies have been pushed already. -/
def step (memo : ExtTreeMap α β) (entry : α × Bool) (stack : List (α × Bool)) :
    ExtTreeMap α β × List (α × Bool) :=
  if entry.1 ∈ memo ∨ p.node entry.1 = false then (memo, stack)
  else match p.base entry.1 with
    | some b => (memo.insert entry.1 b, stack)
    | none =>
      if entry.2 = false ∧ todo p memo entry.1 ≠ [] then
        (memo, ((todo p memo entry.1).map fun d => (d, false)).reverse ++ (entry.1, true) :: stack)
      else (memo.insert entry.1 (p.combine entry.1 fun d => memo[d]?), stack)

/-- The loop. -/
def run : Nat → ExtTreeMap α β → List (α × Bool) → ExtTreeMap α β
  | 0, memo, _ => memo
  | _ + 1, memo, [] => memo
  | fuel + 1, memo, entry :: stack =>
    run fuel (step p memo entry stack).1 (step p memo entry stack).2

/-! ## The recursion -/

/-- Dependencies have a smaller rank. -/
def Acyclic (rank : α → Nat) : Prop :=
  ∀ x, p.node x = true → ∀ d ∈ p.deps x, rank d < rank x

/-- `combine` only looks at the dependencies. -/
def Local : Prop :=
  ∀ x f g, p.node x = true → (∀ d ∈ p.deps x, f d = g d) → p.combine x f = p.combine x g

/-- A solution of the recursion. -/
structure Solves (v : α → β) : Prop where
  base : ∀ x b, p.node x = true → p.base x = some b → v x = b
  combine : ∀ x, p.node x = true → p.base x = none →
    v x = p.combine x fun d => if p.node d then some (v d) else none

/-- The dependencies of a marked node are known, or above it on the stack. -/
def Covered (memo : ExtTreeMap α β) : List α → List (α × Bool) → Prop
  | _, [] => True
  | above, entry :: stack =>
    (entry.2 = true → ∀ d ∈ p.deps entry.1, p.node d = true → d ∈ memo ∨ d ∈ above) ∧
      Covered memo (entry.1 :: above) stack

/-- What holds between two iterations: the memo has values of the solution, what is above a marker
ranks below it, and the dependencies of a marker are taken care of. -/
structure Ready (rank : α → Nat) (v : α → β) (memo : ExtTreeMap α β) (stack : List (α × Bool)) :
    Prop where
  values : ∀ x b, memo[x]? = some b → p.node x = true ∧ b = v x
  ordered : stack.Pairwise fun e f => f.2 = true → rank e.1 < rank f.1
  covered : Covered p memo [] stack

variable {p} {rank : α → Nat} {v : α → β} {memo : ExtTreeMap α β} {stack : List (α × Bool)}
  {entry : α × Bool}

theorem mem_insert_iff [LawfulEqOrd α] {b : β} {x y : α} : y ∈ memo.insert x b ↔ y = x ∨ y ∈ memo := by
  rw [ExtTreeMap.mem_insert, LawfulEqOrd.compare_eq_iff_eq, eq_comm]

theorem Covered.mono {memo' : ExtTreeMap α β} {above above' : List α}
    (h : Covered p memo above stack)
    (hmono : ∀ d, p.node d = true → d ∈ memo ∨ d ∈ above → d ∈ memo' ∨ d ∈ above') :
    Covered p memo' above' stack := by
  induction stack generalizing above above' with
  | nil => trivial
  | cons entry stack ih =>
    refine ⟨fun hmark d hd hnd => hmono d hnd (h.1 hmark d hd hnd), ih h.2 ?_⟩
    intro d hnd hin
    simp only [List.mem_cons] at hin ⊢
    rcases hin with hin | rfl | hin
    · exact (hmono d hnd (.inl hin)).imp_right .inr
    · exact .inr (.inl rfl)
    · exact (hmono d hnd (.inr hin)).imp_right .inr

/-- Entries without a marker only add to what is above the rest. -/
theorem covered_push {above : List α} (l : List α)
    (h : Covered p memo (l.reverse ++ above) stack) :
    Covered p memo above ((l.map fun d => (d, false)) ++ stack) := by
  induction l generalizing above with
  | nil => exact h
  | cons x l ih =>
    refine ⟨fun hmark => by simp at hmark, ih ?_⟩
    simpa using h

/-- The value a settled node gets. -/
theorem Ready.settled (h : Ready p rank v memo (entry :: stack)) (hlocal : Local p)
    (hv : Solves p v) (hnode : p.node entry.1 = true) (hbase : p.base entry.1 = none)
    (hdone : ¬(entry.2 = false ∧ todo p memo entry.1 ≠ [])) :
    p.combine entry.1 (fun d => memo[d]?) = v entry.1 := by
  obtain ⟨x, done⟩ := entry
  -- every dependency is known: nothing was left to push, or it has been pushed and popped
  have hknown : ∀ d ∈ p.deps x, p.node d = true → d ∈ memo := by
    intro d hd hnd
    cases done with
    | false =>
      by_contra hnot
      apply hdone
      refine ⟨rfl, List.ne_nil_of_mem (a := d) ?_⟩
      simp [todo, hd, hnd, hnot]
    | true =>
      rcases h.covered.1 rfl d hd hnd with hmem | hmem
      · exact hmem
      · simp at hmem
  rw [hv.combine x hnode hbase]
  apply hlocal x _ _ hnode
  intro d hd
  by_cases hnd : p.node d = true
  · have hmem := hknown d hd hnd
    rw [ExtTreeMap.getElem?_eq_some_getElem hmem]
    have := (h.values d memo[d] (ExtTreeMap.getElem?_eq_some_getElem hmem)).2
    simp [hnd, this]
  · rw [if_neg hnd]
    cases hm : memo[d]? with
    | none => rfl
    | some b => exact absurd (h.values d b hm).1 hnd

/-- What one iteration does. -/
inductive Stepped (p : Problem α β) (v : α → β) (memo : ExtTreeMap α β) (entry : α × Bool)
    (stack : List (α × Bool)) : ExtTreeMap α β × List (α × Bool) → Prop
  | skip (hskip : entry.1 ∈ memo ∨ p.node entry.1 = false) : Stepped p v memo entry stack (memo, stack)
  | expand (hnew : entry.1 ∉ memo) (hnode : p.node entry.1 = true) (hopen : entry.2 = false) :
      Stepped p v memo entry stack
        (memo, ((todo p memo entry.1).map fun d => (d, false)).reverse ++ (entry.1, true) :: stack)
  | settle (hnode : p.node entry.1 = true) :
      Stepped p v memo entry stack (memo.insert entry.1 (v entry.1), stack)

theorem stepped (h : Ready p rank v memo (entry :: stack)) (hlocal : Local p) (hv : Solves p v) :
    Stepped p v memo entry stack (step p memo entry stack) := by
  unfold step
  split
  · next hskip => exact .skip hskip
  · next hskip =>
    rw [not_or, Bool.not_eq_false] at hskip
    obtain ⟨hnew, hnode⟩ := hskip
    split
    · next b hb =>
      rw [← hv.base _ b hnode hb]
      exact .settle hnode
    · next hb =>
      split
      · next hopen => exact .expand hnew hnode hopen.1
      · next hdone =>
        rw [h.settled hlocal hv hnode hb hdone]
        exact .settle hnode

/-- One iteration keeps the invariant. -/
theorem Ready.next [LawfulEqOrd α] (h : Ready p rank v memo (entry :: stack)) (hac : Acyclic p rank)
    {s : ExtTreeMap α β × List (α × Bool)} (hs : Stepped p v memo entry stack s) :
    Ready p rank v s.1 s.2 := by
  obtain ⟨hhead, htail⟩ := List.pairwise_cons.mp h.ordered
  cases hs with
  | skip hskip =>
    refine ⟨h.values, htail, h.covered.2.mono ?_⟩
    rintro d hnd (hd | hd)
    · exact .inl hd
    · -- the entry that was popped is known, or has no value
      simp only [List.mem_cons, List.not_mem_nil, or_false] at hd
      subst hd
      exact .inl (hskip.resolve_right (by simp [hnd]))
  | settle hnode =>
    refine ⟨?_, htail, h.covered.2.mono ?_⟩
    · intro x b hx
      rw [ExtTreeMap.getElem?_insert] at hx
      split at hx
      · next heq =>
        obtain rfl := LawfulEqOrd.compare_eq_iff_eq.mp heq
        cases hx
        exact ⟨hnode, rfl⟩
      · exact h.values x b hx
    · rintro d hnd (hd | hd)
      · exact .inl (mem_insert_iff.mpr (.inr hd))
      · simp only [List.mem_cons, List.not_mem_nil, or_false] at hd
        exact .inl (mem_insert_iff.mpr (.inl hd))
  | expand hnew hnode hopen =>
    have hlow : ∀ d ∈ todo p memo entry.1, rank d < rank entry.1 := by
      intro d hd
      exact hac entry.1 hnode d (List.mem_filter.mp hd).1
    refine ⟨h.values, ?_, ?_⟩
    · rw [List.pairwise_append, List.pairwise_cons]
      refine ⟨?_, ⟨fun f hf hmark => hhead f hf hmark, htail⟩, ?_⟩
      · apply List.pairwise_of_forall_mem_list
        intro e _ f hf hmark
        obtain ⟨d, -, rfl⟩ := List.mem_map.mp (List.mem_reverse.mp hf)
        simp at hmark
      · intro e he f hf hmark
        obtain ⟨d, hd, rfl⟩ := List.mem_map.mp (List.mem_reverse.mp he)
        rcases List.mem_cons.mp hf with rfl | hf
        · exact hlow d hd
        · exact (hlow d hd).trans (hhead f hf hmark)
    · rw [← List.map_reverse]
      apply covered_push
      refine ⟨fun _ d hd hnd => ?_, h.covered.2.mono ?_⟩
      · by_cases hmem : d ∈ memo
        · exact .inl hmem
        · right
          simp [todo, hd, hnd, hmem]
      · rintro d hnd (hd | hd)
        · exact .inl hd
        · simp only [List.mem_cons, List.not_mem_nil, or_false] at hd
          exact .inr (by simp [hd])

/-! ## Cost -/

section Cost

variable {keys : List α} {w : α → Nat} {q r : α → Bool}

omit [Ord α] [TransOrd α] in
theorem sum_filter_le (h : ∀ k ∈ keys, r k = true → q k = true) :
    ((keys.filter r).map w).sum ≤ ((keys.filter q).map w).sum := by
  induction keys with
  | nil => simp
  | cons k keys ih =>
    have ih := ih fun x hx => h x (List.mem_cons_of_mem _ hx)
    have hk := h k List.mem_cons_self
    cases hr : r k <;> cases hq : q k <;> simp_all
    omega

omit [Ord α] [TransOrd α] in
theorem sum_filter_add_le (h : ∀ k ∈ keys, r k = true → q k = true) {x : α} (hx : x ∈ keys)
    (hq : q x = true) (hr : r x = false) :
    ((keys.filter r).map w).sum + w x ≤ ((keys.filter q).map w).sum := by
  induction keys with
  | nil => simp at hx
  | cons k keys ih =>
    have htail : ∀ y ∈ keys, r y = true → q y = true := fun y hy => h y (List.mem_cons_of_mem _ hy)
    have hk := h k List.mem_cons_self
    rcases List.mem_cons.mp hx with rfl | hx
    · have := sum_filter_le (w := w) htail
      simp only [List.filter_cons, hq, hr, if_true, Bool.false_eq_true, if_false, List.map_cons,
        List.sum_cons]
      omega
    · have := ih htail hx
      cases hrk : r k <;> cases hqk : q k <;> simp_all <;> omega

end Cost

section Fuel

variable [DecidableEq α] {keys : List α}

/-- The node is neither known nor expanded. -/
def unexpanded (memo : ExtTreeMap α β) (stack : List (α × Bool)) (k : α) : Bool :=
  decide (k ∉ memo) && decide ((k, true) ∉ stack)

/-- Iterations still to come, at most: the entries on the stack, and an expansion of every node
that is neither known nor expanded already. -/
def cost (p : Problem α β) (keys : List α) (memo : ExtTreeMap α β) (stack : List (α × Bool)) : Nat :=
  stack.length + ((keys.filter (unexpanded memo stack)).map fun k => 1 + (p.deps k).length).sum

theorem unexpanded_iff {k : α} :
    unexpanded memo stack k = true ↔ k ∉ memo ∧ (k, true) ∉ stack := by
  simp [unexpanded]

variable [LawfulEqOrd α]

theorem Stepped.cost_lt (h : Ready p rank v memo (entry :: stack))
    (hkeys : ∀ x, x ∈ keys ↔ p.node x = true) {s : ExtTreeMap α β × List (α × Bool)}
    (hs : Stepped p v memo entry stack s) :
    cost p keys s.1 s.2 + 1 ≤ cost p keys memo (entry :: stack) := by
  obtain ⟨x, mark⟩ := entry
  have hhead := (List.pairwise_cons.mp h.ordered).1
  unfold cost
  cases hs with
  | skip hskip =>
    have hsub : ∀ k ∈ keys, unexpanded memo stack k = true →
        unexpanded memo ((x, mark) :: stack) k = true := by
      intro k hk
      rw [unexpanded_iff, unexpanded_iff, List.mem_cons, not_or]
      rintro ⟨hnew, hout⟩
      refine ⟨hnew, fun heq => ?_, hout⟩
      cases heq
      rcases hskip with hskip | hskip
      · exact hnew hskip
      · simp [(hkeys _).mp hk] at hskip
    have hle := sum_filter_le (w := fun k => 1 + (p.deps k).length) hsub
    simp only [List.length_cons]
    omega
  | settle hnode =>
    have hsub : ∀ k ∈ keys, unexpanded (memo.insert x (v x)) stack k = true →
        unexpanded memo ((x, mark) :: stack) k = true := by
      intro k hk
      rw [unexpanded_iff, unexpanded_iff, List.mem_cons, not_or, mem_insert_iff, not_or]
      rintro ⟨⟨hne, hnew⟩, hout⟩
      refine ⟨hnew, fun heq => ?_, hout⟩
      cases heq
      exact hne rfl
    have hle := sum_filter_le (w := fun k => 1 + (p.deps k).length) hsub
    simp only [List.length_cons]
    omega
  | expand hnew hnode hopen =>
    simp only at hnew hnode hopen
    subst hopen
    -- the node is not expanded yet: what is above its marker would rank below it
    have hout : (x, true) ∉ stack := fun hin => absurd (hhead _ hin rfl) (Nat.lt_irrefl _)
    have hsub : ∀ k ∈ keys, unexpanded memo
        (((todo p memo x).map fun d => (d, false)).reverse ++ (x, true) :: stack) k = true →
        unexpanded memo ((x, false) :: stack) k = true := by
      intro k hk
      rw [unexpanded_iff, unexpanded_iff, List.mem_append, List.mem_cons, List.mem_cons]
      push Not
      rintro ⟨hknew, -, -, hkout⟩
      exact ⟨hknew, by simp, hkout⟩
    have hle := sum_filter_add_le (w := fun k => 1 + (p.deps k).length) hsub ((hkeys x).mpr hnode)
      (unexpanded_iff.mpr ⟨hnew, by simp [hout]⟩) (by simp [unexpanded])
    have htodo : (todo p memo x).length ≤ (p.deps x).length := List.length_filter_le _ _
    simp only [List.length_append, List.length_reverse, List.length_map, List.length_cons]
    omega

variable (hac : Acyclic p rank) (hlocal : Local p) (hv : Solves p v)
  (hkeys : ∀ x, x ∈ keys ↔ p.node x = true)
include hac hlocal hv hkeys

/-- **The loop solves the recursion**: it keeps what is known, every node of the stack becomes
known, and all values are those of the solution. -/
theorem run_spec {fuel : Nat} (h : Ready p rank v memo stack)
    (hfuel : cost p keys memo stack ≤ fuel) :
    (∀ x b, (run p fuel memo stack)[x]? = some b → p.node x = true ∧ b = v x) ∧
      (∀ x ∈ memo, x ∈ run p fuel memo stack) ∧
      ∀ e ∈ stack, p.node e.1 = true → e.1 ∈ run p fuel memo stack := by
  induction fuel generalizing memo stack with
  | zero =>
    have hnil : stack = [] := by
      cases stack with
      | nil => rfl
      | cons e stack => simp [cost] at hfuel
    subst hnil
    exact ⟨h.values, fun x hx => hx, by simp⟩
  | succ fuel ih =>
    cases stack with
    | nil => exact ⟨h.values, fun x hx => hx, by simp⟩
    | cons entry stack =>
      have hs := stepped h hlocal hv
      have hlt := hs.cost_lt h hkeys
      obtain ⟨hvalues, hkeep, hstack⟩ := ih (h.next hac hs) (by omega)
      rw [run]
      refine ⟨hvalues, ?_, ?_⟩
      · intro x hx
        apply hkeep
        revert hs
        generalize step p memo entry stack = s
        intro hs
        cases hs with
        | skip _ => exact hx
        | settle _ => exact mem_insert_iff.mpr (.inr hx)
        | expand _ _ _ => exact hx
      · intro e he hnode
        revert hs hkeep hstack
        generalize step p memo entry stack = s
        intro hs hkeep hstack
        rcases List.mem_cons.mp he with rfl | he
        · cases hs with
          | skip hskip => exact hkeep _ (hskip.resolve_right (by simp [hnode]))
          | settle _ => exact hkeep _ (mem_insert_iff.mpr (.inl rfl))
          | expand _ _ _ => exact hstack (e.1, true) (by simp) hnode
        · cases hs with
          | skip _ => exact hstack e he hnode
          | settle _ => exact hstack e he hnode
          | expand _ _ _ => exact hstack e (by simp [he]) hnode

end Fuel

end Bellbook.PostOrder
